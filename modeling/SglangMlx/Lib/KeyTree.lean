import SglangMlx.Lib.PrefixTree

/- The tree of a set of keys: a node ends exactly at the longest common prefix of any two
   keys, a key being that of itself and itself, and the labels are a function of the
   letters up to them. The keys determine this tree up to the names of its nodes
   (`OfKeys.iso`), and one key more adds at most two nodes (`OfKeys.insert`). Nothing here
   names the program that uses it. -/
namespace PrefixTree
variable {ι ι' κ ν : Type} [DecidableEq ι] [DecidableEq ι']

/-- `p` is the longest common prefix of `a` and `b`. -/
structure Meet (p a b : List κ) : Prop where
  left : p <+: a
  right : p <+: b
  longest : ∀ q, q <+: a → q <+: b → q <+: p

theorem Meet.symm {p a b : List κ} (h : Meet p a b) :
    Meet p b a := ⟨h.right, h.left, fun q ha hb => h.longest q hb ha⟩

theorem meet_self (a : List κ) : Meet a a a := ⟨List.prefix_refl a, List.prefix_refl a, fun _ h _ => h⟩

/-- Past a proper prefix of `c` the key `b` parts from `a` if it parts from `c`. -/
theorem Meet.of_proper {p a b c : List κ} (h : Meet p a b) (hc : c <+: a) (hpc : p <+: c)
    (hne : p ≠ c) {d : List κ} (hd : c <+: d) : Meet p d b := by
  refine ⟨hpc.trans hd, h.right, fun q hqd hqb => ?_⟩
  obtain hle | hle := Nat.le_total q.length c.length
  · exact h.longest q ((List.prefix_of_prefix_length_le hqd hd hle).trans hc) hqb
  · -- then `c` is a common prefix of `a` and `b`
    have hcq := List.prefix_of_prefix_length_le hd hqd hle
    exact absurd (hpc.eq_of_length_le (h.longest c hc (hcq.trans hqb)).length_le) hne

/-- The labels of a key. -/
def labels (f : List κ → ν) (key : List κ) : List ν := (List.range key.length).map fun i => f (key.take (i + 1))

/-- A key with its labels. -/
def annotate (f : List κ → ν) (key : List κ) : List (κ × ν) := key.zip (labels f key)

section
variable (f : List κ → ν)

theorem labels_length (key : List κ) : (labels f key).length = key.length := by
  rw [labels, List.length_map, List.length_range]

theorem annotate_letters (key : List κ) : (annotate f key).map Prod.fst = key :=
  List.map_fst_zip (labels_length f key).ge

theorem annotate_labels (key : List κ) : (annotate f key).map Prod.snd = labels f key :=
  List.map_snd_zip (labels_length f key).le

theorem annotate_take (key : List κ) (n : Nat) : annotate f (key.take n) = (annotate f key).take n := by
  have htake : labels f (key.take n) = (labels f key).take n := by
    rw [labels, labels, ← List.map_take, List.take_range, List.length_take]
    apply List.map_congr_left
    intro i hi
    rw [List.take_take, Nat.min_eq_left]
    have := List.mem_range.mp hi
    omega
  rw [annotate, annotate, htake, List.zip_eq_zipWith, List.zip_eq_zipWith, List.take_zipWith]

theorem annotate_of_prefix {q r : List (κ × ν)} (h : q <+: r) (hr : r = annotate f (r.map Prod.fst)) :
    q = annotate f (q.map Prod.fst) := by
  have hq := List.prefix_iff_eq_take.mp h
  calc q = (annotate f (r.map Prod.fst)).take q.length := by rw [← hr, ← hq]
    _ = annotate f ((r.map Prod.fst).take q.length) := (annotate_take f _ _).symm
    _ = annotate f (q.map Prod.fst) := by rw [← List.map_take, ← hq]

theorem annotate_append_rest {q : List (κ × ν)} {key : List κ} (hq : q = annotate f (q.map Prod.fst))
    (hle : q.map Prod.fst <+: key) : q ++ (key.drop q.length).zip ((labels f key).drop q.length) =
      annotate f key := by
  have htake : q = (annotate f key).take q.length := by
    rw [← annotate_take]
    refine hq.trans (congrArg (annotate f) ?_)
    have h := List.prefix_iff_eq_take.mp hle
    rwa [List.length_map] at h
  have hdrop : (key.drop q.length).zip ((labels f key).drop q.length) = (annotate f key).drop q.length := by
    rw [annotate, List.zip_eq_zipWith, List.zip_eq_zipWith, List.drop_zipWith]
  rw [hdrop]
  nth_rewrite 1 [htake]
  exact List.take_append_drop _ _

end

/-! ## Renaming nodes -/

/-- `φ` is a bijection of the nodes that keeps the root paths. -/
structure Iso (T : PrefixTree ι κ ν) (T' : PrefixTree ι' κ ν) (φ : ι → ι') : Prop where
  bij : Set.BijOn φ T.nodes T'.nodes
  path : ∀ n ∈ T.nodes, T'.path (φ n) = T.path n

section
variable {T : PrefixTree ι κ ν} {T' : PrefixTree ι' κ ν} {φ : ι → ι'} (h : Iso T T' φ)
include h

theorem Iso.mem {n : ι} (hn : n ∈ T.nodes) : φ n ∈ T'.nodes := h.bij.mapsTo hn

theorem Iso.root : φ T.root = T'.root := by
  apply path_eq_nil (h.mem T.root_mem)
  rw [h.path _ T.root_mem, T.path_root]

theorem Iso.ne_root {n : ι} (hn : n ∈ T.nodes) : φ n ≠ T'.root ↔ n ≠ T.root := by
  rw [← h.root]
  exact (h.bij.injOn.eq_iff hn T.root_mem).not

theorem Iso.parent {n : ι} (hn : n ∈ T.nodes) (hr : n ≠ T.root) : T'.parent (φ n) = φ (T.parent n) := by
  have hp := T.parent_mem n hn hr
  have hn' := h.mem hn
  have hr' := (h.ne_root hn).mpr hr
  have hp' := T'.parent_mem _ hn' hr'
  obtain ⟨m, hm, hmp⟩ := h.bij.surjOn hp'
  have hmp : φ m = T'.parent (φ n) := hmp
  have hpath : T'.path (T'.parent (φ n)) = T.path m := by rw [← hmp, h.path m hm]
  -- each is an ancestor of the other
  have hle : T.path m <+: T.path (T.parent n) := by
    refine (prefix_parent hm hn ?_ ?_).2
    · rw [← hpath, ← h.path n hn]
      exact parent_path_le hn' hr'
    · rintro rfl
      exact parent_ne hn' hr' hmp.symm
  have hge : T.path (T.parent n) <+: T.path m := by
    rw [← hpath, ← h.path _ hp]
    refine (prefix_parent (h.mem hp) hn' ?_ ?_).2
    · rw [h.path _ hp, h.path n hn]
      exact parent_path_le hn hr
    · intro he
      exact parent_ne hn hr (h.bij.injOn hp hn he)
  rw [← hmp]
  exact congrArg φ (path_inj hm hp (hle.eq_of_length (Nat.le_antisymm hle.length_le hge.length_le)))

theorem Iso.edge {n : ι} (hn : n ∈ T.nodes) : T'.edge (φ n) = T.edge n := by
  by_cases hr : n = T.root
  · rw [hr, h.root, T.edge_root, T'.edge_root]
  · have hpath := T'.path_eq (φ n) (h.mem hn) ((h.ne_root hn).mpr hr)
    rw [h.parent hn hr, h.path n hn, h.path _ (T.parent_mem n hn hr), T.path_eq n hn hr] at hpath
    exact (List.append_cancel_left hpath).symm

theorem Iso.filed {n m : ι} {t : κ} (hn : n ∈ T.nodes) (hm : m ∈ T.nodes) :
    T'.Filed (φ n) t (φ m) ↔ T.Filed n t m := by
  have hfirst : T'.first (φ m) = T.first m := by rw [first, first, h.edge hm]
  constructor
  · rintro ⟨_, hr, hp, ht⟩
    have hr := (h.ne_root hm).mp hr
    rw [h.parent hm hr] at hp
    exact ⟨hm, hr, h.bij.injOn (T.parent_mem m hm hr) hn hp, hfirst ▸ ht⟩
  · rintro ⟨_, hr, hp, ht⟩
    refine ⟨h.mem hm, (h.ne_root hm).mpr hr, ?_, hfirst.trans ht⟩
    rw [h.parent hm hr, hp]

theorem Iso.sum_edge : ∑ n ∈ T'.nodes, (T'.edge n).length = ∑ n ∈ T.nodes, (T.edge n).length := by
  symm
  apply Finset.sum_bij fun n _ => φ n
  · exact fun n hn => h.mem hn
  · exact fun n hn m hm he => h.bij.injOn hn hm he
  · intro m hm
    obtain ⟨n, hn, he⟩ := h.bij.surjOn hm
    exact ⟨n, hn, he⟩
  · intro n hn
    rw [h.edge hn]

end

/-! ## The tree of a set of keys -/

structure OfKeys (T : PrefixTree ι κ ν) (f : List κ → ν) (keys : Set (List κ)) : Prop where
  ends : ∀ p, p ≠ [] → ((∃ n ∈ T.nodes, T.letters n = p) ↔ ∃ a ∈ keys, ∃ b ∈ keys, Meet p a b)
  labels : ∀ n ∈ T.nodes, T.path n = annotate f (T.letters n)

section
variable {T : PrefixTree ι κ ν} {f : List κ → ν} {keys : Set (List κ)} (h : T.OfKeys f keys)
include h

theorem OfKeys.node_of_key {a : List κ} (ha : a ∈ keys) (hne : a ≠ []) : ∃ n ∈ T.nodes, T.letters n = a :=
  (h.ends a hne).mpr ⟨a, ha, a, ha, meet_self a⟩

theorem OfKeys.pos_of_key {a p : List κ} (ha : a ∈ keys) (hp : p <+: a) (hne : p ≠ []) :
    ∃ q, T.Pos q ∧ q.map Prod.fst = p := by
  have hane : a ≠ [] := by
    rintro rfl
    exact hne (List.prefix_nil.mp hp)
  obtain ⟨n, hn, hl⟩ := h.node_of_key ha hane
  obtain ⟨q, hq, _, he⟩ := exists_pos hn (hl ▸ hp) hne
  exact ⟨q, hq, he⟩

theorem OfKeys.key_of_pos {q : List (κ × ν)} (hq : T.Pos q) : ∃ a ∈ keys, q.map Prod.fst <+: a := by
  obtain ⟨hne, n, hn, hle⟩ := hq
  have hle := hle.map Prod.fst
  have hn0 : T.letters n ≠ [] := by
    intro e
    change _ <+: T.letters n at hle
    rw [e] at hle
    exact hne (List.map_eq_nil_iff.mp (List.prefix_nil.mp hle))
  obtain ⟨a, ha, _, _, hm⟩ := (h.ends _ hn0).mp ⟨n, hn, rfl⟩
  exact ⟨a, ha, hle.trans hm.left⟩

/-- Where the longest stored prefix of a key ends there is the longest common prefix with another one. -/
theorem OfKeys.meet_longest {key : List κ} {q : List (κ × ν)} (hlong : T.Longest key q) (hne : q ≠ []) :
    ∃ a ∈ keys, Meet (q.map Prod.fst) key a := by
  obtain ⟨a, ha, hle⟩ := h.key_of_pos (hlong.pos.resolve_left hne)
  refine ⟨a, ha, hlong.letters, hle, fun r hrk hra => ?_⟩
  by_cases hr : r = []
  · rw [hr]
    exact List.nil_prefix
  · obtain ⟨q', hq', rfl⟩ := h.pos_of_key ha hra hr
    exact (hlong.le_of_pos hq' hrk).map _

/-- One key more: a node where it leaves the tree and a node at its end. -/
theorem OfKeys.insert {T' : PrefixTree ι κ ν} {key : List κ} {q : List (κ × ν)} (hlong : T.Longest key q)
    (hsub : ∀ n ∈ T.nodes, n ∈ T'.nodes ∧ T'.letters n = T.letters n)
    (hcut : ∃ n ∈ T'.nodes, T'.letters n = q.map Prod.fst) (hkey : ∃ n ∈ T'.nodes, T'.letters n = key)
    (honly : ∀ n ∈ T'.nodes, n ∈ T.nodes ∨ T'.letters n = q.map Prod.fst ∨ T'.letters n = key)
    (hlabels : ∀ n ∈ T'.nodes, T'.path n = annotate f (T'.letters n)) : T'.OfKeys f (Insert.insert key keys) := by
  refine ⟨fun p hp => ⟨?_, ?_⟩, hlabels⟩
  · rintro ⟨n, hn, rfl⟩
    obtain hold | hleave | hend := honly n hn
    · rw [(hsub n hold).2] at hp ⊢
      obtain ⟨a, ha, b, hb, hm⟩ := (h.ends _ hp).mp ⟨n, hold, rfl⟩
      exact ⟨a, Or.inr ha, b, Or.inr hb, hm⟩
    · rw [hleave] at hp ⊢
      obtain ⟨a, ha, hm⟩ := h.meet_longest hlong fun e => hp (by rw [e]; rfl)
      exact ⟨key, Or.inl rfl, a, Or.inr ha, hm⟩
    · rw [hend]
      exact ⟨key, Or.inl rfl, key, Or.inl rfl, meet_self key⟩
  · have hwith : ∀ b ∈ keys, Meet p key b → ∃ n ∈ T'.nodes, T'.letters n = p := by
      intro b hb hm
      obtain ⟨r, hr, rfl⟩ := h.pos_of_key hb hm.right hp
      have hrq := (hlong.le_of_pos hr hm.left).map Prod.fst
      by_cases he : r.map Prod.fst = q.map Prod.fst
      · rwa [he]
      · -- the tree leaves `b` where `key` does
        have hq : q ≠ [] := by
          rintro rfl
          exact he (List.prefix_nil.mp hrq)
        obtain ⟨a, ha, hqa⟩ := h.key_of_pos (hlong.pos.resolve_left hq)
        have hmeet := hm.of_proper hlong.letters hrq he hqa
        obtain ⟨n, hn, hl⟩ := (h.ends _ hp).mpr ⟨a, ha, b, hb, hmeet⟩
        exact ⟨n, (hsub n hn).1, (hsub n hn).2.trans hl⟩
    rintro ⟨a, ha | ha, b, hb | hb, hm⟩
    · rw [ha, hb] at hm
      have he : p = key :=
        hm.left.eq_of_length_le (hm.longest key (List.prefix_refl key) (List.prefix_refl key)).length_le
      rwa [he]
    · exact hwith b hb (ha ▸ hm)
    · exact hwith a ha (hb ▸ hm.symm)
    · obtain ⟨n, hn, hl⟩ := (h.ends p hp).mpr ⟨a, ha, b, hb, hm⟩
      exact ⟨n, (hsub n hn).1, (hsub n hn).2.trans hl⟩

/-- The keys determine the tree. -/
theorem OfKeys.iso {T' : PrefixTree ι' κ ν} (h' : T'.OfKeys f keys) : ∃ φ, Iso T T' φ := by
  have half : ∀ n ∈ T.nodes, ∃ m ∈ T'.nodes, T'.path m = T.path n := by
    intro n hn
    by_cases hnil : T.letters n = []
    · refine ⟨T'.root, T'.root_mem, ?_⟩
      rw [T'.path_root, h.labels n hn, hnil]
      rfl
    · obtain ⟨m, hm, hl⟩ := (h'.ends _ hnil).mpr ((h.ends _ hnil).mp ⟨n, hn, rfl⟩)
      exact ⟨m, hm, by rw [h'.labels m hm, hl, h.labels n hn]⟩
  have hback : ∀ m ∈ T'.nodes, ∃ n ∈ T.nodes, T.path n = T'.path m := by
    intro m hm
    by_cases hnil : T'.letters m = []
    · refine ⟨T.root, T.root_mem, ?_⟩
      rw [T.path_root, h'.labels m hm, hnil]
      rfl
    · obtain ⟨n, hn, hl⟩ := (h.ends _ hnil).mpr ((h'.ends _ hnil).mp ⟨m, hm, rfl⟩)
      exact ⟨n, hn, by rw [h.labels n hn, hl, h'.labels m hm]⟩
  have : Nonempty ι' := ⟨T'.root⟩
  choose! φ hφ hpath using half
  refine ⟨φ, ⟨hφ, fun n hn m hm he => ?_, fun m hm => ?_⟩, hpath⟩
  · apply path_inj hn hm
    rw [← hpath n hn, ← hpath m hm, he]
  · obtain ⟨n, hn, he⟩ := hback m hm
    exact ⟨n, hn, path_inj (hφ n hn) hm ((hpath n hn).trans he)⟩

end

end PrefixTree
