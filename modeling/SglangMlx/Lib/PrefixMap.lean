import SglangMlx.Lib.PrefixTree

/- Prefix maps: finite maps on nonempty strings whose domain is closed under
   nonempty prefixes. This is what a prefix tree is for: it answers a lookup with
   the values at the successive prefixes of a key (`matched`), and an insertion
   only fills in what is missing (`insert`). `PrefixTree.toMap` is the map of a
   tree; the positions of the tree say how it changes. -/

/-- A finite map with a prefix-closed domain of nonempty strings. -/
structure PrefixMap (κ ν : Type) where
  get : List κ → Option ν
  nil : get [] = none
  closed : ∀ key t, get (key ++ [t]) ≠ none → key ≠ [] → get key ≠ none
  finite : {key | get key ≠ none}.Finite

namespace PrefixMap
variable {κ ν : Type} (m : PrefixMap κ ν)

@[ext] theorem ext {m m' : PrefixMap κ ν} (h : ∀ key, m.get key = m'.get key) : m = m' := by
  cases m with
  | mk get _ _ _ =>
    cases m' with
    | mk get' _ _ _ =>
      have : get = get' := funext h
      subst this
      rfl

/-- The values at the prefixes of `start ++ key` that are longer than `start`,
    up to the first that is missing. -/
def matchedFrom (start : List κ) : List κ → List ν
  | [] => []
  | t :: key =>
    match m.get (start ++ [t]) with
    | none => []
    | some v => v :: matchedFrom (start ++ [t]) key

/-- The values at the successive prefixes of `key`. -/
def matched (key : List κ) : List ν := m.matchedFrom [] key

variable {m}

theorem get_of_append {key : List κ} (rest : List κ) (h : m.get (key ++ rest) ≠ none) (hk : key ≠ []) :
    m.get key ≠ none := by
  induction rest using List.reverseRecOn with
  | nil => rwa [List.append_nil] at h
  | append_singleton rest t ih =>
    rw [← List.append_assoc] at h
    exact ih (m.closed _ t h (by simp [hk]))

theorem matchedFrom_length_le (start : List κ) (key : List κ) :
    (m.matchedFrom start key).length ≤ key.length := by
  induction key generalizing start with
  | nil => exact Nat.le_refl _
  | cons t key ih =>
    rw [matchedFrom]
    cases m.get (start ++ [t]) with
    | none => exact Nat.zero_le _
    | some v => exact Nat.succ_le_succ (ih _)

theorem matchedFrom_get (start key : List κ) {i : Nat} (hi : i < (m.matchedFrom start key).length) :
    m.get (start ++ key.take (i + 1)) = (m.matchedFrom start key)[i]? := by
  induction key generalizing start i with
  | nil => exact absurd hi (Nat.not_lt_zero _)
  | cons t key ih =>
    rw [matchedFrom] at hi ⊢
    cases hg : m.get (start ++ [t]) with
    | none => rw [hg] at hi; exact absurd hi (Nat.not_lt_zero _)
    | some v =>
      rw [hg] at hi
      cases i with
      | zero => simpa using hg
      | succ i =>
        have := ih (start ++ [t]) (Nat.lt_of_succ_lt_succ hi)
        simpa using this

theorem matchedFrom_stop (start key : List κ) (hlt : (m.matchedFrom start key).length < key.length) :
    m.get (start ++ key.take ((m.matchedFrom start key).length + 1)) = none := by
  induction key generalizing start with
  | nil => exact absurd hlt (Nat.not_lt_zero _)
  | cons t key ih =>
    rw [matchedFrom] at hlt ⊢
    cases hg : m.get (start ++ [t]) with
    | none => simpa using hg
    | some v =>
      rw [hg] at hlt
      have := ih (start ++ [t]) (Nat.lt_of_succ_lt_succ hlt)
      simpa using this

theorem matched_length_le (key : List κ) : (m.matched key).length ≤ key.length :=
  matchedFrom_length_le [] key

theorem get_take {key : List κ} {i : Nat} (hi : i < (m.matched key).length) :
    m.get (key.take (i + 1)) = (m.matched key)[i]? := matchedFrom_get [] key hi

theorem get_take_none {key : List κ} {k : Nat} (hk : (m.matched key).length < k) (hle : k ≤ key.length) :
    m.get (key.take k) = none := by
  by_contra hne
  have hstop := matchedFrom_stop (m := m) [] key (Nat.lt_of_lt_of_le hk hle)
  refine get_of_append ((key.take k).drop ((m.matched key).length + 1)) ?_ ?_ hstop
  · have : key.take ((m.matched key).length + 1) =
        (key.take k).take ((m.matched key).length + 1) := by
      rw [List.take_take, Nat.min_eq_left hk]
    rw [List.nil_append]
    show m.get (key.take ((m.matched key).length + 1) ++ _) ≠ none
    rw [this, List.take_append_drop]
    exact hne
  · refine List.ne_nil_of_length_pos ?_
    rw [List.nil_append, List.length_take]
    omega

/-- `vs` are the values at the successive prefixes of `key` up to the longest one
    in the domain. -/
structure Matches (m : PrefixMap κ ν) (key : List κ) (vs : List ν) : Prop where
  le : vs.length ≤ key.length
  get : ∀ i, i < vs.length → m.get (key.take (i + 1)) = vs[i]?
  longest : ∀ k, vs.length < k → k ≤ key.length → m.get (key.take k) = none

theorem matches_matched (key : List κ) : m.Matches key (m.matched key) :=
  ⟨matched_length_le key, fun _ hi => get_take hi, fun _ hk hle => get_take_none hk hle⟩

/-- `matched` is determined by what it returns and where it stops. -/
theorem matched_eq {key : List κ} {vs : List ν} (hle : vs.length ≤ key.length)
    (hget : ∀ i, i < vs.length → m.get (key.take (i + 1)) = vs[i]?)
    (hstop : vs.length < key.length → m.get (key.take (vs.length + 1)) = none) : m.matched key = vs := by
  have hlen : (m.matched key).length = vs.length := by
    rcases Nat.lt_trichotomy (m.matched key).length vs.length with h | h | h
    · have h1 : m.get (key.take _) = none := get_take_none (Nat.lt_succ_self _) (Nat.le_trans h hle)
      rw [hget _ h, List.getElem?_eq_getElem h] at h1
      cases h1
    · exact h
    · have h1 := hstop (Nat.lt_of_lt_of_le h (matched_length_le key))
      rw [get_take h, List.getElem?_eq_getElem h] at h1
      cases h1
  refine List.ext_getElem? fun i => ?_
  by_cases hi : i < vs.length
  · rw [← get_take (hlen ▸ hi), hget i hi]
  · rw [List.getElem?_eq_none (Nat.le_of_not_lt hi), List.getElem?_eq_none (hlen ▸ Nat.le_of_not_lt hi)]

/-- Fill in the missing prefixes of `key`. -/
def insert [DecidableEq κ] (m : PrefixMap κ ν) (key : List κ) (value : List ν)
    (hlen : value.length = key.length) : PrefixMap κ ν where
  get k := match m.get k with
    | some v => some v
    | none => if k <+: key ∧ k ≠ [] then value[k.length - 1]? else none
  nil := by simp [m.nil]
  closed k t h hk := by
    cases hg : m.get k with
    | some v => simp
    | none =>
      -- the longer string is new, so it is a prefix of `key`, and so is `k`
      have hnew : m.get (k ++ [t]) = none := by
        by_contra hne
        exact m.closed k t hne hk hg
      rw [hnew] at h
      have hle : k ++ [t] <+: key := by
        by_contra hno
        simp [hno] at h
      have hkl := hle.length_le
      rw [List.length_append, List.length_singleton, ← hlen] at hkl
      have hpos := List.length_pos_of_ne_nil hk
      simp only [(List.prefix_append _ _).trans hle, ne_eq, hk, not_false_eq_true, and_self, if_true]
      rw [List.getElem?_eq_getElem (by omega)]
      simp
  finite := by
    refine (m.finite.union (key.inits.toFinset.finite_toSet)).subset fun k hk => ?_
    cases hg : m.get k with
    | some v => exact Or.inl (by simp [hg])
    | none =>
      right
      simp only [Set.mem_ofPred_eq, hg] at hk
      by_contra hno
      simp only [Finset.mem_coe, List.mem_toFinset, List.mem_inits] at hno
      simp [hno] at hk

theorem insert_get [DecidableEq κ] {key k : List κ} {value : List ν} {hlen : value.length = key.length} {v : ν} :
    (m.insert key value hlen).get k = some v ↔
      m.get k = some v ∨ (m.get k = none ∧ k <+: key ∧ k ≠ [] ∧ value[k.length - 1]? = some v) := by
  show (match m.get k with
    | some v => some v
    | none => if k <+: key ∧ k ≠ [] then value[k.length - 1]? else none) = some v ↔ _
  cases m.get k with
  | some w => simp
  | none =>
    by_cases hc : k <+: key ∧ k ≠ []
    · simp [hc]
    · simp only [hc, if_false]
      refine iff_of_false (by simp) ?_
      intro h
      rcases h with h | ⟨_, h1, h2, _⟩
      · cases h
      · exact hc ⟨h1, h2⟩

end PrefixMap

/-! ## The map of a prefix tree -/

namespace PrefixTree
variable {ι κ ν : Type} [DecidableEq ι] (T : PrefixTree ι κ ν)

/-- `v` is the label of the position with letters `key`. -/
def Labels (key : List κ) (v : ν) : Prop := ∃ q t, T.Pos (q ++ [(t, v)]) ∧ q.map Prod.fst ++ [t] = key

variable {T}

theorem Labels.unique {key : List κ} {v v' : ν} (h : T.Labels key v) (h' : T.Labels key v') : v = v' := by
  obtain ⟨q, t, hq, hk⟩ := h
  obtain ⟨q', t', hq', hk'⟩ := h'
  have := pos_det hq hq' (by simp [hk, hk'])
  have := (List.append_inj' this rfl).2
  simpa using (congrArg (List.map Prod.snd) this)

theorem Pos.labels {q : List (κ × ν)} (h : T.Pos q) {i : Nat} (hi : i < q.length) :
    T.Labels ((q.take (i + 1)).map Prod.fst) (q[i]).2 := by
  refine ⟨q.take i, (q[i]).1, ?_, ?_⟩
  · show T.Pos (q.take i ++ [q[i]])
    rw [← List.take_succ_eq_append_getElem hi]
    exact h.mono (List.take_prefix _ _) (List.ne_nil_of_length_pos (by rw [List.length_take]; omega))
  · rw [List.take_succ_eq_append_getElem hi, List.map_append]
    rfl

/-- The labels of the positions are the labels on the edges. -/
theorem labels_of_stored {v : ν} (h : v ∈ T.stored) : ∃ key, T.Labels key v := by
  obtain ⟨q, t, hq⟩ := mem_stored.mp h
  exact ⟨_, q, t, hq, rfl⟩

theorem Labels.stored {key : List κ} {v : ν} (h : T.Labels key v) : v ∈ T.stored := by
  obtain ⟨q, t, hq, _⟩ := h
  exact mem_stored.mpr ⟨q, t, hq⟩

theorem Longest.labels {key : List κ} {q : List (κ × ν)} (h : T.Longest key q) {i : Nat} {v : ν}
    (hv : (q.map Prod.snd)[i]? = some v) : T.Labels (key.take (i + 1)) v := by
  rw [List.getElem?_map] at hv
  obtain ⟨a, ha, hv⟩ := Option.map_eq_some_iff.mp hv
  obtain ⟨hi, ha⟩ := List.getElem?_eq_some_iff.mp ha
  have hpos := h.pos.resolve_left fun e => by rw [e] at hi; exact absurd hi (Nat.not_lt_zero _)
  have hl := hpos.labels hi
  rw [List.map_take, List.prefix_iff_eq_take.mp h.letters, List.take_take, List.length_map,
    Nat.min_eq_left hi, ha, hv] at hl
  exact hl

theorem Longest.not_labels {key : List κ} {q : List (κ × ν)} (h : T.Longest key q) {i : Nat} {v : ν}
    (hi : q.length ≤ i) (hik : i < key.length) : ¬T.Labels (key.take (i + 1)) v := by
  intro ⟨r, t, hr, hk⟩
  have hle := h.longest _ hr (by rw [List.map_append, List.map_singleton, hk]; exact List.take_prefix _ _)
  have := congrArg List.length hk
  rw [List.length_append, List.length_map, List.length_take, List.length_singleton] at this
  rw [List.length_append, List.length_singleton] at hle
  omega

theorem Labels.of_append {key : List κ} {t : κ} {v : ν} (h : T.Labels (key ++ [t]) v) (hk : key ≠ []) :
    ∃ v', T.Labels key v' := by
  obtain ⟨q, t', hq, he⟩ := h
  obtain ⟨hqk, _⟩ := List.append_inj' he rfl
  have hne : q ≠ [] := fun e => hk (by rw [← hqk, e]; rfl)
  have hpos := List.length_pos_of_ne_nil hne
  have := (hq.mono (List.prefix_append _ _) hne).labels (i := q.length - 1) (by omega)
  rw [Nat.sub_add_cancel hpos, List.take_length, hqk] at this
  exact ⟨_, this⟩

variable (T)

open Classical in
/-- The map of a tree. -/
noncomputable def toMap : PrefixMap κ ν where
  get key := if h : ∃ v, T.Labels key v then some h.choose else none
  nil := by
    refine dif_neg ?_
    intro ⟨v, q, t, _, hk⟩
    simp at hk
  closed key t h hk := by
    by_cases hl : ∃ v, T.Labels (key ++ [t]) v
    · obtain ⟨v, hv⟩ := hl
      simp [hv.of_append hk]
    · simp [hl] at h
  finite := by
    refine (Set.Finite.biUnion T.nodes.finite_toSet
      (t := fun n => {key | key ∈ (T.letters n).inits}) fun n _ => List.finite_toSet _).subset fun key hkey => ?_
    have hl : ∃ v, T.Labels key v := by
      by_contra hno
      simp [hno] at hkey
    obtain ⟨v, q, t, ⟨_, n, hn, hle⟩, hk⟩ := hl
    rw [Set.mem_iUnion₂]
    refine ⟨n, hn, ?_⟩
    rw [Set.mem_ofPred_eq, List.mem_inits, ← hk]
    simpa [letters] using hle.map Prod.fst

variable {T}

theorem toMap_get {key : List κ} {v : ν} : T.toMap.get key = some v ↔ T.Labels key v := by
  unfold toMap
  constructor
  · intro h
    by_cases hl : ∃ v, T.Labels key v
    · simp only [hl, dif_pos, Option.some.injEq] at h
      rw [← h]
      exact hl.choose_spec
    · simp [hl] at h
  · intro h
    have hl : ∃ v, T.Labels key v := ⟨v, h⟩
    simp only [hl, dif_pos, Option.some.injEq]
    exact hl.choose_spec.unique h

theorem toMap_congr {T' : PrefixTree ι κ ν} (h : ∀ q, T'.Pos q ↔ T.Pos q) : T'.toMap = T.toMap := by
  refine PrefixMap.ext fun key => Option.ext fun v => ?_
  rw [toMap_get, toMap_get]
  unfold Labels
  simp only [h]

/-- The longest position along a key carries the values that the map matches. -/
theorem Longest.matched {key : List κ} {q : List (κ × ν)} (h : T.Longest key q) :
    T.toMap.matched key = q.map Prod.snd := by
  refine PrefixMap.matched_eq (by rw [List.length_map]; exact h.length_le) (fun i hi => ?_) fun hlt => ?_
  · rw [toMap_get.mpr (h.labels (List.getElem?_eq_getElem hi)), List.getElem?_eq_getElem hi]
  · by_contra hne
    obtain ⟨v, hv⟩ := Option.ne_none_iff_exists'.mp hne
    rw [List.length_map] at hlt hv
    exact h.not_labels (Nat.le_refl _) hlt (toMap_get.mp hv)

theorem Longest.extend {key : List κ} {value : List ν} (hlen : value.length = key.length)
    {q : List (κ × ν)} (h : T.Longest key q) :
    (q ++ (key.drop q.length).zip (value.drop q.length)).map Prod.fst = key ∧
    ∀ i, q.length ≤ i →
      (q ++ (key.drop q.length).zip (value.drop q.length))[i]?.map Prod.snd = value[i]? := by
  have hzip : (value.drop q.length).length = (key.drop q.length).length := by
    rw [List.length_drop, List.length_drop, hlen]
  refine ⟨?_, fun i hi => ?_⟩
  · rw [List.map_append, List.map_fst_zip hzip.ge, List.prefix_iff_eq_take.mp h.letters, List.length_map,
      List.take_append_drop]
  · rw [List.getElem?_append_right hi, ← List.getElem?_map, List.map_snd_zip hzip.le, List.getElem?_drop,
      Nat.add_sub_cancel' hi]

/-- Adding the unmatched rest of a key below its longest position inserts it
    into the map. -/
theorem toMap_insert [DecidableEq κ] {T' : PrefixTree ι κ ν} {key : List κ} {value : List ν}
    (hlen : value.length = key.length) {q : List (κ × ν)} (h : T.Longest key q)
    (hpos : ∀ r, T'.Pos r ↔ T.Pos r ∨ (r ≠ [] ∧ r <+: q ++ (key.drop q.length).zip (value.drop q.length))) :
    T'.toMap = T.toMap.insert key value hlen := by
  obtain ⟨hfst, hsnd⟩ := h.extend hlen
  have hqf : q <+: q ++ (key.drop q.length).zip (value.drop q.length) := List.prefix_append _ _
  generalize q ++ (key.drop q.length).zip (value.drop q.length) = full at hpos hfst hsnd hqf
  refine PrefixMap.ext fun k => Option.ext fun v => ?_
  rw [toMap_get, PrefixMap.insert_get]
  cases hk : T.toMap.get k with
  | some v' =>
    obtain ⟨r, t, hr, he⟩ := toMap_get.mp hk
    have hv' : T'.Labels k v' := ⟨r, t, (hpos _).mpr (Or.inl hr), he⟩
    refine ⟨fun hv => Or.inl (congrArg some (hv'.unique hv)), fun h => ?_⟩
    rcases h with e | ⟨e, _⟩
    · exact Option.some.inj e ▸ hv'
    · cases e
  | none =>
    have hold : ∀ r t w, T.Pos (r ++ [(t, w)]) → r.map Prod.fst ++ [t] ≠ k := by
      intro r t w hr he
      rw [toMap_get.mpr ⟨r, t, hr, he⟩] at hk
      cases hk
    -- a new position ends past `q`, so its label comes from `value`
    have hlabel : ∀ r t w, r ++ [(t, w)] <+: full → r.map Prod.fst ++ [t] = k → value[r.length]? = some w := by
      intro r t w hr he
      have hge : q.length ≤ r.length := by
        by_contra hlt
        have hrq : r ++ [(t, w)] <+: q := List.prefix_of_prefix_length_le hr hqf (by simp; omega)
        have hq := h.pos.resolve_left fun e => hlt (by rw [e]; exact Nat.zero_le _)
        exact hold r t w (hq.mono hrq (by simp)) he
      have hget := getElem?_of_isPrefix hr (i := r.length) (by simp)
      rw [← hsnd r.length hge, hget]
      simp
    constructor
    · intro ⟨r, t, hr, he⟩
      have hle := (((hpos _).mp hr).resolve_left fun hr => hold r t v hr he).2
      have hkk := hle.map Prod.fst
      rw [hfst, List.map_append, List.map_singleton, he] at hkk
      have hrk : r.length = k.length - 1 := by rw [← he]; simp
      refine Or.inr ⟨rfl, hkk, by rw [← he]; simp, ?_⟩
      rw [← hrk]
      exact hlabel r t v hle he
    · intro h
      obtain ⟨_, hkk, hkne, hv⟩ := h.resolve_left fun e => by cases e
      have hpos' := List.length_pos_of_ne_nil hkne
      have hlt : k.length - 1 < full.length := by
        have h1 := congrArg List.length hfst
        have h2 := hkk.length_le
        rw [List.length_map] at h1
        omega
      have htake : full.take (k.length - 1) ++ [full[k.length - 1]] = full.take k.length := by
        rw [← List.take_succ_eq_append_getElem hlt, Nat.sub_add_cancel hpos']
      have he : (full.take (k.length - 1)).map Prod.fst ++ [(full[k.length - 1]).1] = k := by
        have := congrArg (List.map Prod.fst) htake
        rw [List.map_append, List.map_take (l := full) (i := k.length), hfst,
          ← List.prefix_iff_eq_take.mp hkk] at this
        exact this
      have hle : full.take (k.length - 1) ++ [full[k.length - 1]] <+: full := htake ▸ List.take_prefix _ _
      have hw := hlabel _ (full[k.length - 1]).1 (full[k.length - 1]).2 hle he
      rw [List.length_take, Nat.min_eq_left hlt.le, hv, Option.some.injEq] at hw
      refine ⟨full.take (k.length - 1), (full[k.length - 1]).1, (hpos _).mpr (Or.inr ⟨by simp, ?_⟩), he⟩
      rw [hw]
      exact hle

end PrefixTree
