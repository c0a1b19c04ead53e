import Mathlib

/- Prefix trees: rooted trees whose edges carry strings of pairs (letter, label),
   and in which the edges to the children of one node start with different
   letters. A node is known by the string of its root path, so the tree order is
   the prefix order on root paths: `Anc` (going up parent links) is the same as
   `path n <+: path m`, and the letters alone already decide it
   (`path_prefix_of_letters`). A nonempty prefix of a root path is a position;
   the letters of a position determine its labels (`pos_det`).

   Trees change by `graft` (a new leaf), `split` (a new node inside an edge) and
   `prune` (a leaf removed). The well-formedness of a tree is a field of it, so
   the three operations take what makes the result a tree as arguments. -/

/-- A prefix tree over a finite set of nodes. -/
structure PrefixTree (ι κ ν : Type) [DecidableEq ι] where
  nodes : Finset ι
  root : ι
  parent : ι → ι
  edge : ι → List (κ × ν)
  path : ι → List (κ × ν)
  root_mem : root ∈ nodes
  path_root : path root = []
  edge_root : edge root = []
  parent_mem : ∀ n ∈ nodes, n ≠ root → parent n ∈ nodes
  edge_ne : ∀ n ∈ nodes, n ≠ root → edge n ≠ []
  path_eq : ∀ n ∈ nodes, n ≠ root → path n = path (parent n) ++ edge n
  sibling : ∀ n ∈ nodes, ∀ m ∈ nodes, n ≠ root → m ≠ root → parent n = parent m →
    (edge n).head?.map Prod.fst = (edge m).head?.map Prod.fst → n = m

namespace PrefixTree
variable {ι κ ν : Type} [DecidableEq ι] (T : PrefixTree ι κ ν)

/-- The letters of the root path. -/
def letters (n : ι) : List κ := (T.path n).map Prod.fst

/-- The letter a node is filed under at its parent. -/
def first (n : ι) : Option κ := (T.edge n).head?.map Prod.fst

/-- `m` is the child of `n` filed under the letter `t`. -/
def Filed (n : ι) (t : κ) (m : ι) : Prop :=
  m ∈ T.nodes ∧ m ≠ T.root ∧ T.parent m = n ∧ T.first m = some t

/-- `n` is `m` or an ancestor of `m`. -/
inductive Anc (n : ι) : ι → Prop
  | refl : Anc n n
  | up {m : ι} : m ∈ T.nodes → m ≠ T.root → Anc n (T.parent m) → Anc n m

/-- A position: a nonempty prefix of a root path. -/
def Pos (q : List (κ × ν)) : Prop := q ≠ [] ∧ ∃ n ∈ T.nodes, q <+: T.path n

/-- The labels on all edges. -/
def stored : Multiset ν := ∑ n ∈ T.nodes, ((T.edge n).map Prod.snd : Multiset ν)

/-- `n` has no children. -/
def Leaf (n : ι) : Prop := ∀ m ∈ T.nodes, m ≠ T.root → T.parent m ≠ n

variable {T}

theorem path_length {n : ι} (hn : n ∈ T.nodes) (hr : n ≠ T.root) :
    (T.path n).length = (T.path (T.parent n)).length + (T.edge n).length := by
  rw [T.path_eq n hn hr, List.length_append]

theorem edge_length_pos {n : ι} (hn : n ∈ T.nodes) (hr : n ≠ T.root) : 0 < (T.edge n).length :=
  List.length_pos_of_ne_nil (T.edge_ne n hn hr)

theorem path_parent_lt {n : ι} (hn : n ∈ T.nodes) (hr : n ≠ T.root) :
    (T.path (T.parent n)).length < (T.path n).length := by
  have := path_length hn hr
  have := edge_length_pos hn hr
  omega

theorem parent_ne {n : ι} (hn : n ∈ T.nodes) (hr : n ≠ T.root) : T.parent n ≠ n := by
  intro h
  have := path_parent_lt hn hr
  rw [h] at this
  omega

theorem first_eq {n : ι} (hn : n ∈ T.nodes) (hr : n ≠ T.root) :
    (T.letters n)[(T.path (T.parent n)).length]? = T.first n := by
  unfold letters first
  rw [T.path_eq n hn hr, List.map_append, List.getElem?_append_right (by simp)]
  simp [List.head?_eq_getElem?]

theorem first_isSome {n : ι} (hn : n ∈ T.nodes) (hr : n ≠ T.root) : ∃ t, T.first n = some t := by
  cases h : T.edge n with
  | nil => exact absurd h (T.edge_ne n hn hr)
  | cons a l => exact ⟨a.1, by simp [first, h]⟩

theorem Filed.unique {n m m' : ι} {t : κ} (h : T.Filed n t m) (h' : T.Filed n t m') : m = m' :=
  T.sibling m h.1 m' h'.1 h.2.1 h'.2.1 (h.2.2.1.trans h'.2.2.1.symm) (h.2.2.2.trans h'.2.2.2.symm)

theorem filed_self {m : ι} (hm : m ∈ T.nodes) (hr : m ≠ T.root) : ∃ t, T.Filed (T.parent m) t m :=
  (first_isSome hm hr).imp fun _ ht => ⟨hm, hr, rfl, ht⟩

theorem letters_length (n : ι) : (T.letters n).length = (T.path n).length := by simp [letters]

/-- Induction from the root down. -/
theorem climb {P : ι → Prop} (root : P T.root)
    (step : ∀ n ∈ T.nodes, n ≠ T.root → P (T.parent n) → P n) : ∀ n ∈ T.nodes, P n := by
  have gen : ∀ k, ∀ n ∈ T.nodes, (T.path n).length ≤ k → P n := by
    intro k
    induction k with
    | zero =>
      intro n hn hk
      by_cases hr : n = T.root
      · rw [hr]; exact root
      · have := path_parent_lt hn hr
        omega
    | succ k ih =>
      intro n hn hk
      by_cases hr : n = T.root
      · rw [hr]; exact root
      · have := path_parent_lt hn hr
        exact step n hn hr (ih _ (T.parent_mem n hn hr) (by omega))
  exact fun n hn => gen _ n hn (Nat.le_refl _)

theorem parent_path_le {n : ι} (hn : n ∈ T.nodes) (hr : n ≠ T.root) :
    T.path (T.parent n) <+: T.path n := by
  rw [T.path_eq n hn hr]; exact List.prefix_append _ _

theorem Anc.path_le {n m : ι} (h : T.Anc n m) : T.path n <+: T.path m := by
  induction h with
  | refl => exact List.prefix_refl _
  | up hm hr _ ih => exact ih.trans (parent_path_le hm hr)

theorem anc_root {n : ι} (hn : n ∈ T.nodes) : T.Anc T.root n :=
  climb (P := fun n => T.Anc T.root n) .refl (fun _ hm hr ih => .up hm hr ih) n hn

theorem Anc.cases_down {p m : ι} (h : T.Anc p m) :
    p = m ∨ ∃ c ∈ T.nodes, c ≠ T.root ∧ T.parent c = p ∧ T.Anc c m := by
  induction h with
  | refl => exact Or.inl rfl
  | up hm hr _ ih =>
    rcases ih with rfl | ⟨c, hc, hcr, hcp, hcm⟩
    · exact Or.inr ⟨_, hm, hr, rfl, .refl⟩
    · exact Or.inr ⟨c, hc, hcr, hcp, .up hm hr hcm⟩

theorem getElem?_of_isPrefix {α : Type} {l₁ l₂ : List α} (h : l₁ <+: l₂) {i : Nat} (hi : i < l₁.length) :
    l₂[i]? = l₁[i]? := by
  obtain ⟨r, rfl⟩ := h
  rw [List.getElem?_append_left hi]

theorem Anc.letters_le {n m : ι} (h : T.Anc n m) : T.letters n <+: T.letters m :=
  h.path_le.map _

/-- The letters of the root paths decide the tree order. -/
theorem anc_of_letters {n m : ι} (hn : n ∈ T.nodes) (hm : m ∈ T.nodes)
    (h : T.letters n <+: T.letters m) : T.Anc n m := by
  revert h
  refine climb (P := fun n => T.letters n <+: T.letters m → T.Anc n m) (fun _ => anc_root hm) ?_ n hn
  intro n hn hr ih h
  have hp : T.letters (T.parent n) <+: T.letters n := (parent_path_le hn hr).map _
  have hlt := path_parent_lt hn hr
  rcases (ih (hp.trans h)).cases_down with heq | ⟨c, hc, hcr, hcp, hcm⟩
  · have := h.length_le
    rw [letters_length, letters_length, ← heq] at this
    omega
  · -- the child of the parent towards `m` starts with the letter `n` starts with
    have hclt := path_parent_lt hc hcr
    have e1 := getElem?_of_isPrefix h (i := (T.path (T.parent n)).length) (by rw [letters_length]; omega)
    have e2 := getElem?_of_isPrefix hcm.letters_le (i := (T.path (T.parent c)).length)
      (by rw [letters_length]; omega)
    rw [first_eq hn hr] at e1
    rw [first_eq hc hcr, hcp] at e2
    have : n = c := T.sibling n hn c hc hr hcr hcp.symm (e1.symm.trans e2)
    rw [this]
    exact hcm

theorem path_prefix_of_letters {n m : ι} (hn : n ∈ T.nodes) (hm : m ∈ T.nodes)
    (h : T.letters n <+: T.letters m) : T.path n <+: T.path m :=
  (anc_of_letters hn hm h).path_le

theorem anc_of_path {n m : ι} (hn : n ∈ T.nodes) (hm : m ∈ T.nodes) (h : T.path n <+: T.path m) :
    T.Anc n m := anc_of_letters hn hm (h.map _)

theorem Anc.eq_of_length {n m : ι} (h : T.Anc n m) (hl : (T.path m).length ≤ (T.path n).length) :
    n = m := by
  cases h with
  | refl => rfl
  | up hm hr h' =>
    have := path_parent_lt hm hr
    have := h'.path_le.length_le
    omega

theorem path_inj {n m : ι} (hn : n ∈ T.nodes) (hm : m ∈ T.nodes) (h : T.path n = T.path m) : n = m :=
  (anc_of_path hn hm (by rw [h])).eq_of_length (by rw [h])

theorem path_eq_nil {n : ι} (hn : n ∈ T.nodes) (h : T.path n = []) : n = T.root :=
  path_inj hn T.root_mem (by rw [h, T.path_root])

theorem prefix_parent {n m : ι} (hn : n ∈ T.nodes) (hm : m ∈ T.nodes) (h : T.path n <+: T.path m)
    (hne : n ≠ m) : m ≠ T.root ∧ T.path n <+: T.path (T.parent m) := by
  cases anc_of_path hn hm h with
  | refl => exact absurd rfl hne
  | up _ hr h' => exact ⟨hr, h'.path_le⟩

theorem child_towards {n m : ι} (hn : n ∈ T.nodes) (hm : m ∈ T.nodes) (h : T.path n <+: T.path m)
    (hne : n ≠ m) : ∃ c ∈ T.nodes, c ≠ T.root ∧ T.parent c = n ∧ T.path c <+: T.path m := by
  rcases (anc_of_path hn hm h).cases_down with heq | ⟨c, hc, hr, hp, hcm⟩
  · exact absurd heq hne
  · exact ⟨c, hc, hr, hp, hcm.path_le⟩

theorem child_of_letter {n m : ι} {t : κ} (hn : n ∈ T.nodes) (hm : m ∈ T.nodes)
    (h : T.letters n ++ [t] <+: T.letters m) :
    ∃ c ∈ T.nodes, c ≠ T.root ∧ T.parent c = n ∧ T.first c = some t ∧ T.path c <+: T.path m := by
  have hnm := path_prefix_of_letters hn hm ((List.prefix_append _ _).trans h)
  have hne : n ≠ m := by
    rintro rfl
    have := h.length_le
    simp at this
  obtain ⟨c, hc, hcr, hcp, hcm⟩ := child_towards hn hm hnm hne
  refine ⟨c, hc, hcr, hcp, ?_, hcm⟩
  have hlt := path_parent_lt hc hcr
  have e1 := getElem?_of_isPrefix (hcm.map Prod.fst) (i := (T.path (T.parent c)).length)
    (by rw [List.length_map]; exact hlt)
  have e2 := getElem?_of_isPrefix h (i := (T.path n).length) (by simp [letters_length])
  rw [← first_eq hc hcr]
  simp only [letters] at e1 e2 ⊢
  rw [← e1, hcp, e2, List.getElem?_append_right (by simp)]
  simp

theorem exists_leaf_below {n : ι} (hn : n ∈ T.nodes) : ∃ m ∈ T.nodes, T.Leaf m ∧ T.path n <+: T.path m := by
  classical
  obtain ⟨m, hm, hmax⟩ := (T.nodes.filter fun m => T.path n <+: T.path m).exists_max_image
    (fun m => (T.path m).length) ⟨n, Finset.mem_filter.mpr ⟨hn, List.prefix_refl _⟩⟩
  obtain ⟨hm, hle⟩ := Finset.mem_filter.mp hm
  refine ⟨m, hm, fun c hc hr hp => ?_, hle⟩
  have hmc := parent_path_le hc hr
  have hlt := path_parent_lt hc hr
  rw [hp] at hmc hlt
  have := hmax c (Finset.mem_filter.mpr ⟨hc, hle.trans hmc⟩)
  omega

/-! ## Values that fall -/

section
variable {β : Type} [Preorder β] {f g : ι → β}

/-- No node has more than its parent. -/
def Falls (T : PrefixTree ι κ ν) (f : ι → β) : Prop := ∀ n ∈ T.nodes, n ≠ T.root → f n ≤ f (T.parent n)

theorem Falls.congr (h : T.Falls f) (hg : ∀ n ∈ T.nodes, g n = f n) : T.Falls g := by
  intro n hn hr
  rw [hg n hn, hg _ (T.parent_mem n hn hr)]
  exact h n hn hr

theorem Falls.le_of_path (h : T.Falls f) {n m : ι} (hn : n ∈ T.nodes) (hm : m ∈ T.nodes)
    (hle : T.path n <+: T.path m) : f m ≤ f n := by
  induction anc_of_path hn hm hle with
  | refl => exact le_refl _
  | up hm hr hanc ih => exact (h _ hm hr).trans (ih (T.parent_mem _ hm hr) hanc.path_le)

theorem Falls.raise (h : T.Falls f) {x : ι} (hge : f x ≤ g x) (hle : x ≠ T.root → g x ≤ f (T.parent x))
    (hg : ∀ n, n ≠ x → g n = f n) : T.Falls g := by
  intro n hn hr
  by_cases hnx : n = x
  · subst hnx
    rw [hg _ (parent_ne hn hr)]
    exact hle hr
  · have hfall := h n hn hr
    rw [hg n hnx]
    by_cases hpx : T.parent n = x
    · rw [hpx] at hfall ⊢
      exact hfall.trans hge
    · rw [hg _ hpx]
      exact hfall

end

/-! ## Positions -/

theorem Pos.mono {q r : List (κ × ν)} (h : T.Pos r) (hqr : q <+: r) (hq : q ≠ []) : T.Pos q :=
  ⟨hq, h.2.imp fun _ hn => ⟨hn.1, hqr.trans hn.2⟩⟩

/-- The node whose edge holds the last pair of a position. -/
theorem Pos.holder {q : List (κ × ν)} (h : T.Pos q) : ∃ n ∈ T.nodes, n ≠ T.root ∧
    (T.path (T.parent n)).length < q.length ∧ q <+: T.path n := by
  obtain ⟨hq, n, hn, hqn⟩ := h
  revert hqn
  refine climb (P := fun n => q <+: T.path n → ∃ n ∈ T.nodes, n ≠ T.root ∧
    (T.path (T.parent n)).length < q.length ∧ q <+: T.path n) ?_ ?_ n hn
  · intro hr
    rw [T.path_root] at hr
    exact absurd (List.prefix_nil.mp hr) hq
  · intro n hn hr ih hqn
    by_cases hlt : (T.path (T.parent n)).length < q.length
    · exact ⟨n, hn, hr, hlt, hqn⟩
    · exact ih (List.prefix_of_prefix_length_le hqn (parent_path_le hn hr) (by omega))

theorem letters_first_le {n : ι} {t : κ} (hn : n ∈ T.nodes) (hr : n ≠ T.root) (ht : T.first n = some t) :
    T.letters (T.parent n) ++ [t] <+: T.letters n := by
  have hfirst := first_eq hn hr
  rw [ht] at hfirst
  obtain ⟨r, hr'⟩ := (parent_path_le hn hr).map Prod.fst
  change T.letters (T.parent n) ++ r = T.letters n at hr'
  rw [← hr', List.getElem?_append_right (by simp [letters_length])] at hfirst
  rw [← hr']
  cases r with
  | nil => simp at hfirst
  | cons a r =>
    simp only [letters_length, Nat.sub_self, List.getElem?_cons_zero, Option.some.injEq] at hfirst
    exact ⟨r, by simp [hfirst]⟩

theorem holder_enters {q : List (κ × ν)} {n : ι} {t : κ} (hn : n ∈ T.nodes) (hr : n ≠ T.root)
    (ht : T.first n = some t) (hlt : (T.path (T.parent n)).length < q.length) (hqn : q <+: T.path n) :
    T.letters (T.parent n) ++ [t] <+: q.map Prod.fst := by
  apply List.prefix_of_prefix_length_le (letters_first_le hn hr ht) (hqn.map Prod.fst)
  rw [List.length_append, List.length_map, letters_length, List.length_singleton]
  omega

/-- The holder of a position is an ancestor of every node that extends it. -/
theorem holder_le {q : List (κ × ν)} {n m : ι} (hn : n ∈ T.nodes) (hr : n ≠ T.root)
    (hlt : (T.path (T.parent n)).length < q.length) (hqn : q <+: T.path n) (hm : m ∈ T.nodes)
    (hqm : q.map Prod.fst <+: T.letters m) : T.path n <+: T.path m := by
  obtain ⟨t, ht⟩ := first_isSome hn hr
  have hqt := holder_enters hn hr ht hlt hqn
  obtain ⟨c, hc, hcr, hcp, hct, hcm⟩ :=
    child_of_letter (T.parent_mem n hn hr) hm (hqt.trans hqm)
  have : n = c := T.sibling n hn c hc hr hcr hcp.symm (ht.trans hct.symm)
  rw [this]
  exact hcm

/-- Reading `key` from the root enters the edge of `n`. -/
def Enters (T : PrefixTree ι κ ν) (key : List κ) (n : ι) : Prop :=
  n ∈ T.nodes ∧ n ≠ T.root ∧ ∃ t, T.first n = some t ∧ T.letters (T.parent n) ++ [t] <+: key

theorem enters_of_holder {q : List (κ × ν)} {key : List κ} {n : ι} (hn : n ∈ T.nodes) (hr : n ≠ T.root)
    (hlt : (T.path (T.parent n)).length < q.length) (hqn : q <+: T.path n) (hk : q.map Prod.fst <+: key) :
    T.Enters key n := by
  obtain ⟨t, ht⟩ := first_isSome hn hr
  exact ⟨hn, hr, t, ht, (holder_enters hn hr ht hlt hqn).trans hk⟩

theorem Enters.below {key : List κ} {p n : ι} (h : T.Enters key n) (hp : p ∈ T.nodes)
    (hle : T.path p <+: T.path (T.parent n)) :
    ∃ d t, T.Filed p t d ∧ T.letters p ++ [t] <+: key ∧ (n = d ∨ T.path d <+: T.path (T.parent n)) := by
  obtain ⟨hn, hr, t, ht, hk⟩ := h
  by_cases e : T.parent n = p
  · exact ⟨n, t, ⟨hn, hr, e, ht⟩, e ▸ hk, Or.inl rfl⟩
  · obtain ⟨d, hd, hdr, hdp, hdn⟩ := child_towards hp (T.parent_mem n hn hr) hle (Ne.symm e)
    obtain ⟨u, hu⟩ := first_isSome hd hdr
    have hdk : T.letters d <+: key := (hdn.map Prod.fst).trans ((List.prefix_append _ _).trans hk)
    have := letters_first_le hd hdr hu
    rw [hdp] at this
    exact ⟨d, u, ⟨hd, hdr, hdp, hu⟩, this.trans hdk, Or.inr hdn⟩

/-- Reading a key leaves only one edge. -/
theorem Enters.unique {key : List κ} {n m : ι} (hn : T.Enters key n) (hn' : ¬T.letters n <+: key)
    (hm : T.Enters key m) (hm' : ¬T.letters m <+: key) : n = m := by
  -- below an edge that the key leaves none is entered
  have half : ∀ {n m : ι}, T.Enters key n → ¬T.letters n <+: key → T.Enters key m →
      (T.path (T.parent m)).length ≤ (T.path (T.parent n)).length := by
    intro n m ⟨hn, hnr, t, ht, htk⟩ hnk ⟨hm, hmr, u, hu, huk⟩
    by_contra hlt
    have hle : T.letters (T.parent n) ++ [t] <+: T.letters (T.parent m) := by
      apply List.prefix_of_prefix_length_le htk ((List.prefix_append _ _).trans huk)
      rw [List.length_append, List.length_singleton, letters_length, letters_length]
      omega
    obtain ⟨c, hc, hcr, hcp, hct, hcm⟩ := child_of_letter (T.parent_mem n hn hnr) (T.parent_mem m hm hmr) hle
    have e : n = c := T.sibling n hn c hc hnr hcr hcp.symm (ht.trans hct.symm)
    rw [← e] at hcm
    exact hnk ((hcm.map Prod.fst).trans ((List.prefix_append _ _).trans huk))
  have hlen := Nat.le_antisymm (half hm hm' hn) (half hn hn' hm)
  obtain ⟨hn, hnr, t, ht, htk⟩ := hn
  obtain ⟨hm, hmr, u, hu, huk⟩ := hm
  have heq : T.letters (T.parent n) ++ [t] = T.letters (T.parent m) ++ [u] := by
    apply List.IsPrefix.eq_of_length (List.prefix_of_prefix_length_le htk huk _)
    all_goals simp [letters_length, hlen]
  obtain ⟨hl, htu⟩ := List.append_inj' heq rfl
  have hpar : T.parent n = T.parent m :=
    (anc_of_letters (T.parent_mem n hn hnr) (T.parent_mem m hm hmr) (hl ▸ List.prefix_refl _)).eq_of_length
      hlen.ge
  rw [List.singleton_inj.mp htu] at ht
  exact T.sibling n hn m hm hnr hmr hpar (ht.trans hu.symm)

theorem pos_det {q r : List (κ × ν)} (hq : T.Pos q) (hr : T.Pos r)
    (h : q.map Prod.fst = r.map Prod.fst) : q = r := by
  obtain ⟨n, hn, hnr, hlt, hqn⟩ := hq.holder
  obtain ⟨m, hm, hrm⟩ := hr.2
  have hqm : q <+: T.path m :=
    hqn.trans (holder_le hn hnr hlt hqn hm (by rw [h]; exact hrm.map _))
  have hl : q.length = r.length := by simpa using congrArg List.length h
  exact List.IsPrefix.eq_of_length (List.prefix_of_prefix_length_le hqm hrm hl.le) hl

theorem exists_pos {key : List κ} {n : ι} (hn : n ∈ T.nodes) (hk : key <+: T.letters n) (hne : key ≠ []) :
    ∃ q, T.Pos q ∧ q <+: T.path n ∧ q.map Prod.fst = key := by
  have hl := hk.length_le
  rw [letters_length] at hl
  have hfst : ((T.path n).take key.length).map Prod.fst = key := by
    rw [List.map_take]
    exact (List.prefix_iff_eq_take.mp hk).symm
  refine ⟨_, ⟨fun e => hne ?_, n, hn, List.take_prefix _ _⟩, List.take_prefix _ _, hfst⟩
  rw [← hfst, e]
  rfl

theorem holder_unique {q : List (κ × ν)} {n m : ι} (hn : n ∈ T.nodes) (hnr : n ≠ T.root)
    (hnl : (T.path (T.parent n)).length < q.length) (hqn : q <+: T.path n) (hm : m ∈ T.nodes)
    (hmr : m ≠ T.root) (hml : (T.path (T.parent m)).length < q.length) (hqm : q <+: T.path m) :
    n = m := by
  have h1 := holder_le hn hnr hnl hqn hm (hqm.map _)
  have h2 := holder_le hm hmr hml hqm hn (hqn.map _)
  exact path_inj hn hm (h1.eq_of_length (Nat.le_antisymm h1.length_le h2.length_le))

/-- The longest position whose letters start `key`; `[]` when there is none. -/
structure Longest (T : PrefixTree ι κ ν) (key : List κ) (q : List (κ × ν)) : Prop where
  pos : q = [] ∨ T.Pos q
  letters : q.map Prod.fst <+: key
  longest : ∀ r, T.Pos r → r.map Prod.fst <+: key → r.length ≤ q.length

theorem Longest.length_le {key : List κ} {q : List (κ × ν)} (h : T.Longest key q) : q.length ≤ key.length := by
  rw [← List.length_map Prod.fst]
  exact h.letters.length_le

/-- Every position along the key is a prefix of the longest one. -/
theorem Longest.le_of_pos {key : List κ} {q r : List (κ × ν)} (h : T.Longest key q) (hr : T.Pos r)
    (hk : r.map Prod.fst <+: key) : r <+: q := by
  have hl := h.longest r hr hk
  have hlt : 0 < r.length := List.length_pos_of_ne_nil hr.1
  have hq : T.Pos (q.take r.length) := by
    rcases h.pos with e | hq
    · rw [e] at hl
      simp at hl
      exact absurd hl hr.1
    · refine hq.mono (List.take_prefix _ _) (List.ne_nil_of_length_pos ?_)
      rw [List.length_take]; omega
  have : r = q.take r.length := by
    refine pos_det hr hq ?_
    rw [List.map_take, List.prefix_iff_eq_take.mp hk, List.prefix_iff_eq_take.mp h.letters, List.take_take,
      List.length_map, List.length_map, Nat.min_eq_left hl]
  rw [this]
  exact List.take_prefix _ _

theorem Longest.unique {key : List κ} {q r : List (κ × ν)} (h : T.Longest key q) (h' : T.Longest key r) :
    q = r := by
  have half : ∀ {q r : List (κ × ν)}, T.Longest key q → T.Longest key r → q <+: r := by
    intro q r h h'
    rcases h.pos with e | hq
    · rw [e]; exact List.nil_prefix
    · exact h'.le_of_pos hq h.letters
  exact (half h h').eq_of_length (Nat.le_antisymm (half h h').length_le (half h' h).length_le)

theorem Longest.congr {T' : PrefixTree ι κ ν} {key : List κ} {q : List (κ × ν)} (h : T.Longest key q)
    (hpos : ∀ r, T'.Pos r ↔ T.Pos r) : T'.Longest key q where
  pos := h.pos.imp_right (hpos q).mpr
  letters := h.letters
  longest r hr := h.longest r ((hpos r).mp hr)

theorem mem_stored {v : ν} : v ∈ T.stored ↔ ∃ q t, T.Pos (q ++ [(t, v)]) := by
  unfold stored
  rw [Multiset.mem_sum]
  constructor
  · rintro ⟨n, hn, hv⟩
    by_cases hr : n = T.root
    · rw [hr, T.edge_root] at hv
      simp at hv
    · simp only [Multiset.mem_coe, List.mem_map, Prod.exists, exists_eq_right] at hv
      obtain ⟨t, ht⟩ := hv
      obtain ⟨l, r, hlr⟩ := List.append_of_mem ht
      refine ⟨T.path (T.parent n) ++ l, t, by simp, n, hn, r, ?_⟩
      rw [T.path_eq n hn hr, hlr]
      simp
  · rintro ⟨q, t, hq⟩
    obtain ⟨n, hn, hr, hlt, hqn⟩ := hq.holder
    refine ⟨n, hn, ?_⟩
    obtain ⟨s, hs⟩ := hqn
    rw [T.path_eq n hn hr] at hs
    simp only [List.length_append, List.length_singleton] at hlt
    have hle : (T.path (T.parent n)).length ≤ q.length := by omega
    have he : T.edge n = (q.drop (T.path (T.parent n)).length ++ [(t, v)]) ++ s := by
      have := congrArg (List.drop (T.path (T.parent n)).length) hs
      rw [List.drop_left] at this
      rw [← this, List.append_assoc, List.drop_append_of_le_length hle, List.append_assoc]
    simp [he]

/-! ## Growing a leaf -/

/-- `T` with a new leaf `new` under `p`, whose edge starts with a letter free at `p`. -/
def graft (T : PrefixTree ι κ ν) (new p : ι) (e : List (κ × ν)) (hnew : new ∉ T.nodes)
    (hp : p ∈ T.nodes) (he : e ≠ [])
    (hfree : ∀ c ∈ T.nodes, c ≠ T.root → T.parent c = p → T.first c ≠ e.head?.map Prod.fst) :
    PrefixTree ι κ ν where
  nodes := insert new T.nodes
  root := T.root
  parent := Function.update T.parent new p
  edge := Function.update T.edge new e
  path := Function.update T.path new (T.path p ++ e)
  root_mem := Finset.mem_insert_of_mem T.root_mem
  path_root := by
    rw [Function.update_of_ne (fun h => hnew (by rw [← h]; exact T.root_mem)), T.path_root]
  edge_root := by
    rw [Function.update_of_ne (fun h => hnew (by rw [← h]; exact T.root_mem)), T.edge_root]
  parent_mem n hn hr := by
    by_cases h : n = new
    · subst h; rw [Function.update_self]; exact Finset.mem_insert_of_mem hp
    · rw [Function.update_of_ne h]
      exact Finset.mem_insert_of_mem (T.parent_mem n (Finset.mem_of_mem_insert_of_ne hn h) hr)
  edge_ne n hn hr := by
    by_cases h : n = new
    · subst h; rw [Function.update_self]; exact he
    · rw [Function.update_of_ne h]; exact T.edge_ne n (Finset.mem_of_mem_insert_of_ne hn h) hr
  path_eq n hn hr := by
    by_cases h : n = new
    · subst h
      rw [Function.update_self, Function.update_self, Function.update_self,
        Function.update_of_ne (fun h => hnew (by rw [← h]; exact hp))]
    · have hn' := Finset.mem_of_mem_insert_of_ne hn h
      rw [Function.update_of_ne h, Function.update_of_ne h, Function.update_of_ne h,
        Function.update_of_ne (fun h' => hnew (by rw [← h']; exact T.parent_mem n hn' hr)),
        T.path_eq n hn' hr]
  sibling n hn m hm hnr hmr hpar hfst := by
    by_cases h : n = new
    · by_cases h' : m = new
      · rw [h, h']
      · have hm' := Finset.mem_of_mem_insert_of_ne hm h'
        subst h
        rw [Function.update_self, Function.update_of_ne h'] at hpar hfst
        exact absurd hfst.symm (hfree m hm' hmr hpar.symm)
    · have hn' := Finset.mem_of_mem_insert_of_ne hn h
      by_cases h' : m = new
      · subst h'
        rw [Function.update_self, Function.update_of_ne h] at hpar hfst
        exact absurd hfst (hfree n hn' hnr hpar)
      · rw [Function.update_of_ne h, Function.update_of_ne h'] at hpar hfst
        exact T.sibling n hn' m (Finset.mem_of_mem_insert_of_ne hm h') hnr hmr hpar hfst

section Graft
variable {new p : ι} {e : List (κ × ν)} {hnew : new ∉ T.nodes} {hp : p ∈ T.nodes} {he : e ≠ []}
  {hfree : ∀ c ∈ T.nodes, c ≠ T.root → T.parent c = p → T.first c ≠ e.head?.map Prod.fst}

theorem graft_nodes : (T.graft new p e hnew hp he hfree).nodes = insert new T.nodes := rfl
theorem graft_root : (T.graft new p e hnew hp he hfree).root = T.root := rfl

theorem graft_new : (T.graft new p e hnew hp he hfree).parent new = p ∧
    (T.graft new p e hnew hp he hfree).edge new = e ∧
    (T.graft new p e hnew hp he hfree).path new = T.path p ++ e := by
  simp [graft]

theorem graft_old {n : ι} (hn : n ∈ T.nodes) :
    (T.graft new p e hnew hp he hfree).parent n = T.parent n ∧
    (T.graft new p e hnew hp he hfree).edge n = T.edge n ∧
    (T.graft new p e hnew hp he hfree).path n = T.path n := by
  have h : n ≠ new := fun h => hnew (h ▸ hn)
  simp [graft, h]

theorem graft_filed_other {n m : ι} {t : κ} (hnp : n ≠ p) :
    (T.graft new p e hnew hp he hfree).Filed n t m ↔ T.Filed n t m := by
  unfold Filed first
  rw [graft_nodes, graft_root]
  refine ⟨fun ⟨hm, hr, hmp, hf⟩ => ?_, fun ⟨hm, hr, hmp, hf⟩ => ?_⟩
  · by_cases h : m = new
    · rw [h, graft_new.1] at hmp
      exact absurd hmp.symm hnp
    · have hm' := Finset.mem_of_mem_insert_of_ne hm h
      rw [(graft_old hm').1] at hmp
      rw [(graft_old hm').2.1] at hf
      exact ⟨hm', hr, hmp, hf⟩
  · rw [(graft_old hm).1, (graft_old hm).2.1]
    exact ⟨Finset.mem_insert_of_mem hm, hr, hmp, hf⟩

theorem graft_filed_parent {m : ι} {t : κ} : (T.graft new p e hnew hp he hfree).Filed p t m ↔
    T.Filed p t m ∨ (m = new ∧ e.head?.map Prod.fst = some t) := by
  unfold Filed first
  rw [graft_nodes, graft_root]
  refine ⟨fun ⟨hm, hr, hmp, hf⟩ => ?_, ?_⟩
  · by_cases h : m = new
    · rw [h, graft_new.2.1] at hf
      exact Or.inr ⟨h, hf⟩
    · have hm' := Finset.mem_of_mem_insert_of_ne hm h
      rw [(graft_old hm').1] at hmp
      rw [(graft_old hm').2.1] at hf
      exact Or.inl ⟨hm', hr, hmp, hf⟩
  · intro h
    rcases h with ⟨hm, hr, hmp, hf⟩ | ⟨hm, hf⟩
    · rw [(graft_old hm).1, (graft_old hm).2.1]
      exact ⟨Finset.mem_insert_of_mem hm, hr, hmp, hf⟩
    · rw [hm, graft_new.1, graft_new.2.1]
      exact ⟨Finset.mem_insert_self _ _, fun h => hnew (h ▸ T.root_mem), rfl, hf⟩

theorem graft_not_filed_new {m : ι} {t : κ} : ¬(T.graft new p e hnew hp he hfree).Filed new t m := by
  intro ⟨hm, hr, hmp, _⟩
  by_cases h : m = new
  · rw [h, graft_new.1] at hmp
    exact hnew (hmp ▸ hp)
  · have hm' := Finset.mem_of_mem_insert_of_ne hm h
    rw [(graft_old hm').1] at hmp
    exact hnew (hmp ▸ T.parent_mem m hm' hr)

theorem graft_leaf_new : (T.graft new p e hnew hp he hfree).Leaf new := by
  intro m hm hr h
  obtain ⟨t, ht⟩ := filed_self hm hr
  rw [h] at ht
  exact graft_not_filed_new ht

theorem graft_leaf_old {n : ι} :
    (T.graft new p e hnew hp he hfree).Leaf n ↔ T.Leaf n ∧ n ≠ p := by
  refine ⟨fun h => ⟨fun m hm hr hmp => ?_, fun hnp => ?_⟩, fun ⟨h, hnp⟩ m hm hr hmp => ?_⟩
  · exact h m (Finset.mem_insert_of_mem hm) hr (by rw [(graft_old hm).1, hmp])
  · exact h new (Finset.mem_insert_self _ _) (fun h => hnew (h ▸ T.root_mem)) (by rw [graft_new.1, hnp])
  · by_cases hmn : m = new
    · rw [hmn, graft_new.1] at hmp
      exact hnp hmp.symm
    · have hm' := Finset.mem_of_mem_insert_of_ne hm hmn
      rw [(graft_old hm').1] at hmp
      exact h m hm' hr hmp

theorem graft_pos {q : List (κ × ν)} : (T.graft new p e hnew hp he hfree).Pos q ↔
    T.Pos q ∨ (q ≠ [] ∧ q <+: T.path p ++ e) := by
  unfold Pos
  rw [graft_nodes]
  constructor
  · rintro ⟨hq, n, hn, hqn⟩
    by_cases h : n = new
    · subst h
      rw [graft_new.2.2] at hqn
      exact Or.inr ⟨hq, hqn⟩
    · have hn' := Finset.mem_of_mem_insert_of_ne hn h
      rw [(graft_old hn').2.2] at hqn
      exact Or.inl ⟨hq, n, hn', hqn⟩
  · rintro (⟨hq, n, hn, hqn⟩ | ⟨hq, hqe⟩)
    · exact ⟨hq, n, Finset.mem_insert_of_mem hn, by rw [(graft_old hn).2.2]; exact hqn⟩
    · exact ⟨hq, new, Finset.mem_insert_self _ _, by rw [graft_new.2.2]; exact hqe⟩

theorem graft_stored : (T.graft new p e hnew hp he hfree).stored = e.map Prod.snd + T.stored := by
  unfold stored
  rw [graft_nodes, Finset.sum_insert hnew, graft_new.2.1]
  congr 1
  exact Finset.sum_congr rfl fun n hn => by rw [(graft_old hn).2.1]

theorem Falls.graft {β : Type} [Preorder β] {f g : ι → β} (h : T.Falls f) (hold : ∀ n ∈ T.nodes, g n = f n)
    (hle : g new ≤ f p) : (T.graft new p e hnew hp he hfree).Falls g := by
  intro n hn hr
  rcases Finset.mem_insert.mp hn with rfl | hn
  · rw [graft_new.1, hold p hp]
    exact hle
  · rw [(graft_old hn).1, hold n hn, hold _ (T.parent_mem n hn hr)]
    exact h n hn hr

end Graft

/-! ## Splitting an edge -/

/-- `T` with a new node `new` after the first `k` pairs of the edge of `child`. -/
def split (T : PrefixTree ι κ ν) (new child : ι) (k : Nat) (hnew : new ∉ T.nodes)
    (hc : child ∈ T.nodes) (hr : child ≠ T.root) (hk : 0 < k) (hk' : k < (T.edge child).length) :
    PrefixTree ι κ ν where
  nodes := insert new T.nodes
  root := T.root
  parent := Function.update (Function.update T.parent child new) new (T.parent child)
  edge := Function.update (Function.update T.edge child ((T.edge child).drop k)) new
    ((T.edge child).take k)
  path := Function.update T.path new (T.path (T.parent child) ++ (T.edge child).take k)
  root_mem := Finset.mem_insert_of_mem T.root_mem
  path_root := by
    rw [Function.update_of_ne (fun h => hnew (by rw [← h]; exact T.root_mem)), T.path_root]
  edge_root := by
    rw [Function.update_of_ne (fun h => hnew (by rw [← h]; exact T.root_mem)),
      Function.update_of_ne hr.symm, T.edge_root]
  parent_mem n hn hnr := by
    by_cases h : n = new
    · subst h; rw [Function.update_self]; exact Finset.mem_insert_of_mem (T.parent_mem child hc hr)
    · rw [Function.update_of_ne h]
      by_cases h' : n = child
      · subst h'; rw [Function.update_self]; exact Finset.mem_insert_self _ _
      · rw [Function.update_of_ne h']
        exact Finset.mem_insert_of_mem (T.parent_mem n (Finset.mem_of_mem_insert_of_ne hn h) hnr)
  edge_ne n hn hnr := by
    by_cases h : n = new
    · subst h
      rw [Function.update_self]
      exact List.ne_nil_of_length_pos (by rw [List.length_take]; omega)
    · rw [Function.update_of_ne h]
      by_cases h' : n = child
      · subst h'
        rw [Function.update_self]
        exact List.ne_nil_of_length_pos (by rw [List.length_drop]; omega)
      · rw [Function.update_of_ne h']
        exact T.edge_ne n (Finset.mem_of_mem_insert_of_ne hn h) hnr
  path_eq n hn hnr := by
    by_cases h : n = new
    · subst h
      rw [Function.update_self, Function.update_self, Function.update_self,
        Function.update_of_ne (fun h => hnew (by rw [← h]; exact T.parent_mem child hc hr))]
    · have hn' := Finset.mem_of_mem_insert_of_ne hn h
      rw [Function.update_of_ne h, Function.update_of_ne h, Function.update_of_ne h]
      by_cases h' : n = child
      · subst h'
        rw [Function.update_self, Function.update_self, Function.update_self, List.append_assoc,
          List.take_append_drop, T.path_eq n hn' hnr]
      · rw [Function.update_of_ne h', Function.update_of_ne h',
          Function.update_of_ne (fun h' => hnew (by rw [← h']; exact T.parent_mem n hn' hnr)),
          T.path_eq n hn' hnr]
  sibling n hn m hm hnr hmr hpar hfst := by
    have hcn : child ≠ new := fun h => hnew (h ▸ hc)
    have hpn : ∀ m ∈ T.nodes, m ≠ T.root → T.parent m ≠ new :=
      fun m hm hmr h => hnew (h ▸ T.parent_mem m hm hmr)
    -- the edge of `new` starts as the edge of `child` did
    have hhead : ((T.edge child).take k).head?.map Prod.fst = T.first child := by
      rw [List.head?_take, if_neg (by omega)]; rfl
    by_cases h : n = new
    · by_cases h' : m = new
      · rw [h, h']
      · have hm' := Finset.mem_of_mem_insert_of_ne hm h'
        subst h
        rw [Function.update_self, Function.update_of_ne h'] at hpar hfst
        by_cases hmc : m = child
        · subst hmc
          rw [Function.update_self] at hpar
          exact absurd hpar (hpn m hm' hmr)
        · rw [Function.update_of_ne hmc] at hpar hfst
          exact absurd (T.sibling child hc m hm' hr hmr hpar (hhead.symm.trans hfst)).symm hmc
    · have hn' := Finset.mem_of_mem_insert_of_ne hn h
      rw [Function.update_of_ne h] at hpar hfst
      by_cases h' : m = new
      · subst h'
        rw [Function.update_self] at hpar hfst
        by_cases hnc : n = child
        · subst hnc
          rw [Function.update_self] at hpar
          exact absurd hpar.symm (hpn n hn' hnr)
        · rw [Function.update_of_ne hnc] at hpar hfst
          exact absurd (T.sibling n hn' child hc hnr hr hpar (hfst.trans hhead)) hnc
      · have hm' := Finset.mem_of_mem_insert_of_ne hm h'
        rw [Function.update_of_ne h'] at hpar hfst
        by_cases hnc : n = child
        · by_cases hmc : m = child
          · rw [hnc, hmc]
          · subst hnc
            rw [Function.update_self, Function.update_of_ne hmc] at hpar
            exact absurd hpar.symm (hpn m hm' hmr)
        · rw [Function.update_of_ne hnc] at hpar hfst
          by_cases hmc : m = child
          · subst hmc
            rw [Function.update_self] at hpar
            exact absurd hpar (hpn n hn' hnr)
          · rw [Function.update_of_ne hmc] at hpar hfst
            exact T.sibling n hn' m hm' hnr hmr hpar hfst

section Split
variable {new child : ι} {k : Nat} {hnew : new ∉ T.nodes} {hc : child ∈ T.nodes}
  {hr : child ≠ T.root} {hk : 0 < k} {hk' : k < (T.edge child).length}

theorem split_nodes : (T.split new child k hnew hc hr hk hk').nodes = insert new T.nodes := rfl

theorem split_new : (T.split new child k hnew hc hr hk hk').parent new = T.parent child ∧
    (T.split new child k hnew hc hr hk hk').edge new = (T.edge child).take k ∧
    (T.split new child k hnew hc hr hk hk').path new =
      T.path (T.parent child) ++ (T.edge child).take k := by
  simp [split]

theorem split_child : (T.split new child k hnew hc hr hk hk').parent child = new ∧
    (T.split new child k hnew hc hr hk hk').edge child = (T.edge child).drop k := by
  have h : child ≠ new := fun h => hnew (h ▸ hc)
  simp [split, h]

theorem split_other {n : ι} (hn : n ∈ T.nodes) (hnc : n ≠ child) :
    (T.split new child k hnew hc hr hk hk').parent n = T.parent n ∧
    (T.split new child k hnew hc hr hk hk').edge n = T.edge n := by
  have h : n ≠ new := fun h => hnew (h ▸ hn)
  simp [split, h, hnc]

theorem split_path {n : ι} (hn : n ∈ T.nodes) :
    (T.split new child k hnew hc hr hk hk').path n = T.path n := by
  have h : n ≠ new := fun h => hnew (h ▸ hn)
  simp [split, h]

theorem split_new_le : (T.split new child k hnew hc hr hk hk').path new <+: T.path child := by
  rw [split_new.2.2, T.path_eq child hc hr]
  exact List.prefix_append_right_inj _ |>.mpr (List.take_prefix _ _)

theorem split_first_new : (T.split new child k hnew hc hr hk hk').first new = T.first child := by
  unfold first
  rw [split_new.2.1, List.head?_take, if_neg hk.ne']

theorem split_first_child :
    (T.split new child k hnew hc hr hk hk').first child = (T.edge child)[k]?.map Prod.fst := by
  unfold first
  rw [split_child.2, List.head?_drop]

theorem split_first_other {n : ι} (hn : n ∈ T.nodes) (hnc : n ≠ child) :
    (T.split new child k hnew hc hr hk hk').first n = T.first n := by
  unfold first
  rw [(split_other hn hnc).2]

theorem split_filed_new {t : κ} {m : ι} : (T.split new child k hnew hc hr hk hk').Filed new t m ↔
    m = child ∧ (T.edge child)[k]?.map Prod.fst = some t := by
  refine ⟨fun ⟨hm, hmr, hmp, hf⟩ => ?_, fun ⟨hm, hf⟩ => ?_⟩
  · have hmc : m = child := by
      by_contra hmc
      by_cases hmn : m = new
      · rw [hmn, split_new.1] at hmp
        exact hnew (hmp ▸ T.parent_mem child hc hr)
      · have hm' := Finset.mem_of_mem_insert_of_ne hm hmn
        rw [(split_other hm' hmc).1] at hmp
        exact hnew (hmp ▸ T.parent_mem m hm' hmr)
    subst hmc
    exact ⟨rfl, split_first_child.symm.trans hf⟩
  · rw [hm]
    exact ⟨Finset.mem_insert_of_mem hc, hr, split_child.1, split_first_child.trans hf⟩

theorem split_filed_parent {t : κ} {m : ι} :
    (T.split new child k hnew hc hr hk hk').Filed (T.parent child) t m ↔
    (T.first child = some t ∧ m = new) ∨ (T.first child ≠ some t ∧ T.Filed (T.parent child) t m) := by
  have hpn : T.parent child ≠ new := fun h => hnew (h ▸ T.parent_mem child hc hr)
  refine ⟨fun ⟨hm, hmr, hmp, hf⟩ => ?_, fun h => ?_⟩
  · by_cases hmn : m = new
    · rw [hmn, split_first_new] at hf
      exact Or.inl ⟨hf, hmn⟩
    · have hm' := Finset.mem_of_mem_insert_of_ne hm hmn
      by_cases hmc : m = child
      · rw [hmc, split_child.1] at hmp
        exact absurd hmp.symm hpn
      · rw [(split_other hm' hmc).1] at hmp
        rw [split_first_other hm' hmc] at hf
        exact Or.inr ⟨fun h => hmc (T.sibling m hm' child hc hmr hr hmp (hf.trans h.symm)),
          hm', hmr, hmp, hf⟩
  · rcases h with ⟨ht, h⟩ | ⟨ht, hm, hmr, hmp, hf⟩
    · rw [h]
      exact ⟨Finset.mem_insert_self _ _, fun h => hnew (h ▸ T.root_mem), split_new.1,
        split_first_new.trans ht⟩
    · have hmc : m ≠ child := fun e => ht (e ▸ hf)
      exact ⟨Finset.mem_insert_of_mem hm, hmr, by rw [(split_other hm hmc).1, hmp],
        by rw [split_first_other hm hmc, hf]⟩

theorem split_filed_other {n m : ι} {t : κ} (hn : n ∈ T.nodes) (hnp : n ≠ T.parent child) :
    (T.split new child k hnew hc hr hk hk').Filed n t m ↔ T.Filed n t m := by
  refine ⟨fun ⟨hm, hmr, hmp, hf⟩ => ?_, fun ⟨hm, hmr, hmp, hf⟩ => ?_⟩
  · have hmn : m ≠ new := by
      intro h
      rw [h, split_new.1] at hmp
      exact hnp hmp.symm
    have hm' := Finset.mem_of_mem_insert_of_ne hm hmn
    have hmc : m ≠ child := by
      intro h
      rw [h, split_child.1] at hmp
      exact hnew (hmp ▸ hn)
    rw [(split_other hm' hmc).1] at hmp
    rw [split_first_other hm' hmc] at hf
    exact ⟨hm', hmr, hmp, hf⟩
  · have hmc : m ≠ child := fun h => hnp (by rw [← hmp, h])
    exact ⟨Finset.mem_insert_of_mem hm, hmr, by rw [(split_other hm hmc).1, hmp],
      by rw [split_first_other hm hmc, hf]⟩

theorem split_pos {q : List (κ × ν)} : (T.split new child k hnew hc hr hk hk').Pos q ↔ T.Pos q := by
  unfold Pos
  rw [split_nodes]
  constructor
  · rintro ⟨hq, n, hn, hqn⟩
    by_cases h : n = new
    · subst h
      exact ⟨hq, child, hc, hqn.trans split_new_le⟩
    · have hn' := Finset.mem_of_mem_insert_of_ne hn h
      rw [split_path hn'] at hqn
      exact ⟨hq, n, hn', hqn⟩
  · rintro ⟨hq, n, hn, hqn⟩
    exact ⟨hq, n, Finset.mem_insert_of_mem hn, by rw [split_path hn]; exact hqn⟩

theorem split_below_new {m : ι} (hm : m ∈ T.nodes) :
    (T.split new child k hnew hc hr hk hk').path new <+: (T.split new child k hnew hc hr hk hk').path m ↔
      T.path child <+: T.path m := by
  refine ⟨fun h => ?_, fun h => ?_⟩
  · have hne : new ≠ m := fun e => hnew (e ▸ hm)
    obtain ⟨c, hcm, hcr, hcp, hle⟩ := child_towards (T := T.split new child k hnew hc hr hk hk')
      (Finset.mem_insert_self _ _) (Finset.mem_insert_of_mem hm) h hne
    obtain ⟨t, ht⟩ := filed_self hcm hcr
    rw [hcp] at ht
    rw [(split_filed_new.mp ht).1, split_path hc, split_path hm] at hle
    exact hle
  · rw [split_path hm]
    exact split_new_le.trans h

theorem split_leaf_new : ¬(T.split new child k hnew hc hr hk hk').Leaf new := fun h =>
  h child (Finset.mem_insert_of_mem hc) hr split_child.1

theorem split_leaf_old {n : ι} (hn : n ∈ T.nodes) :
    (T.split new child k hnew hc hr hk hk').Leaf n ↔ T.Leaf n := by
  refine ⟨fun h m hm hmr hmp => ?_, fun h m hm hmr hmp => ?_⟩
  · by_cases hmc : m = child
    · refine h new (Finset.mem_insert_self _ _) (fun h => hnew (h ▸ T.root_mem)) ?_
      rw [split_new.1, ← hmc, hmp]
    · exact h m (Finset.mem_insert_of_mem hm) hmr (by rw [(split_other hm hmc).1, hmp])
  · by_cases hmn : m = new
    · rw [hmn, split_new.1] at hmp
      exact h child hc hr hmp
    · have hm' := Finset.mem_of_mem_insert_of_ne hm hmn
      by_cases hmc : m = child
      · rw [hmc, split_child.1] at hmp
        exact hnew (hmp ▸ hn)
      · rw [(split_other hm' hmc).1] at hmp
        exact h m hm' hmr hmp

/-- A sum over the nodes after a split, for a summand that only changes at the
    two halves of the edge. -/
theorem split_sum {M : Type} [AddCommMonoid M] {f g : ι → M}
    (hfg : ∀ n ∈ T.nodes, n ≠ child → f n = g n) (hchild : f new + f child = g child) :
    ∑ n ∈ (T.split new child k hnew hc hr hk hk').nodes, f n = ∑ n ∈ T.nodes, g n := by
  rw [split_nodes, Finset.sum_insert hnew, ← Finset.add_sum_erase _ f hc,
    ← Finset.add_sum_erase _ g hc, ← add_assoc, hchild]
  congr 1
  exact Finset.sum_congr rfl fun n hn => hfg n (Finset.mem_of_mem_erase hn) (Finset.ne_of_mem_erase hn)

theorem split_stored : (T.split new child k hnew hc hr hk hk').stored = T.stored := by
  unfold stored
  refine split_sum (fun n hn h => by rw [(split_other hn h).2]) ?_
  rw [split_new.2.1, split_child.2, Multiset.coe_add, ← List.map_append, List.take_append_drop]

theorem Falls.split {β : Type} [Preorder β] {f g : ι → β} (h : T.Falls f) (hold : ∀ n ∈ T.nodes, g n = f n)
    (hge : f child ≤ g new) (hle : g new ≤ f (T.parent child)) :
    (T.split new child k hnew hc hr hk hk').Falls g := by
  intro n hn hnr
  rcases Finset.mem_insert.mp hn with rfl | hn
  · rw [split_new.1, hold _ (T.parent_mem child hc hr)]
    exact hle
  · rw [hold n hn]
    by_cases hnc : n = child
    · rw [hnc, split_child.1]
      exact hge
    · rw [(split_other hn hnc).1, hold _ (T.parent_mem n hn hnr)]
      exact h n hn hnr

end Split

/-! ## Removing a leaf -/

/-- `T` without the leaf `x`. -/
def prune (T : PrefixTree ι κ ν) (x : ι) (hx : x ≠ T.root) (hleaf : T.Leaf x) : PrefixTree ι κ ν where
  nodes := T.nodes.erase x
  root := T.root
  parent := T.parent
  edge := T.edge
  path := T.path
  root_mem := Finset.mem_erase.mpr ⟨hx.symm, T.root_mem⟩
  path_root := T.path_root
  edge_root := T.edge_root
  parent_mem n hn hr := by
    have hn' := Finset.mem_of_mem_erase hn
    exact Finset.mem_erase.mpr ⟨hleaf n hn' hr, T.parent_mem n hn' hr⟩
  edge_ne n hn := T.edge_ne n (Finset.mem_of_mem_erase hn)
  path_eq n hn := T.path_eq n (Finset.mem_of_mem_erase hn)
  sibling n hn m hm := T.sibling n (Finset.mem_of_mem_erase hn) m (Finset.mem_of_mem_erase hm)

section Prune
variable {x : ι} {hx : x ≠ T.root} {hleaf : T.Leaf x}

theorem Leaf.eq_of_le {n : ι} (hleaf : T.Leaf x) (hxm : x ∈ T.nodes) (hn : n ∈ T.nodes)
    (h : T.path x <+: T.path n) : n = x := by
  by_contra hne
  obtain ⟨c, hc, hcr, hcp, _⟩ := child_towards hxm hn h (Ne.symm hne)
  exact hleaf c hc hcr hcp

theorem prune_filed {n m : ι} {t : κ} :
    (T.prune x hx hleaf).Filed n t m ↔ T.Filed n t m ∧ m ≠ x :=
  ⟨fun ⟨hm, hr, hp, hf⟩ => ⟨⟨Finset.mem_of_mem_erase hm, hr, hp, hf⟩, Finset.ne_of_mem_erase hm⟩,
    fun ⟨⟨hm, hr, hp, hf⟩, hne⟩ => ⟨Finset.mem_erase.mpr ⟨hne, hm⟩, hr, hp, hf⟩⟩

theorem prune_stored (hxm : x ∈ T.nodes) :
    T.stored = (T.edge x).map Prod.snd + (T.prune x hx hleaf).stored :=
  (Finset.add_sum_erase T.nodes (fun n => ((T.edge n).map Prod.snd : Multiset ν)) hxm).symm

end Prune

end PrefixTree
