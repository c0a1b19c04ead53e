import SglangMlx.RadixBook

/- What `match_prefix` and `insert` do. Both walk down from the root along the
   longest stored prefix of the key, cutting at most one edge at its end
   (`matchLoop_spec`, `insertLoop_spec`, by induction on the fuel: every
   iteration consumes at least one token). `match_prefix` stops there
   (`matchPrefix_spec`); `insert` grafts what is left of the key as a new leaf
   (`insert_spec`). -/
namespace SglangMlx

theorem keyMatch_take : ∀ a b : List Token, a.take (keyMatch a b) = b.take (keyMatch a b)
  | [], b => by simp [keyMatch]
  | x :: a, [] => by simp [keyMatch]
  | x :: a, y :: b => by
    by_cases h : x = y
    · simp [keyMatch, h, keyMatch_take a b]
    · simp [keyMatch, h]

theorem keyMatch_le : ∀ a b : List Token, keyMatch a b ≤ a.length ∧ keyMatch a b ≤ b.length
  | [], b => by simp [keyMatch]
  | x :: a, [] => by simp [keyMatch]
  | x :: a, y :: b => by
    have ih := keyMatch_le a b
    by_cases h : x = y
    · simp [keyMatch, h, ih]
    · simp [keyMatch, h]

theorem keyMatch_differs : ∀ (a b : List Token) (t : Token), a[keyMatch a b]? = some t →
    b[keyMatch a b]? ≠ some t
  | [], b, t => by simp [keyMatch]
  | x :: a, [], t => by simp [keyMatch]
  | x :: a, y :: b, t => by
    have ih := keyMatch_differs a b t
    by_cases h : x = y
    · simpa [keyMatch, h] using ih
    · simp only [keyMatch, h, ne_eq, not_false_eq_true, if_true, List.getElem?_cons_zero]
      intro ha hb
      exact h ((Option.some.inj ha).trans (Option.some.inj hb).symm)

namespace RadixCache

/-! ## One iteration of the loops -/

theorem matchLoop_stop {r : Reading} {fuel : Nat} {c : RadixCache} {node : NodeId} {t : Token}
    {key : List Token} {value : List (List Slot)} (hl : (c.nodes node).children.lookup t = none) :
    matchLoop r (fuel + 1) c node (t :: key) value = some (c, value, node) := by
  simp only [matchLoop, hl]

theorem matchLoop_split {r : Reading} {fuel : Nat} {c c' : RadixCache} {node child new : NodeId} {t : Token}
    {key : List Token} {value : List (List Slot)} {v : List Slot} {k : Nat}
    (hl : (c.nodes node).children.lookup t = some child)
    (hk : keyMatch (c.nodes child).key (t :: key) = k) (hlt : k < (c.nodes child).key.length)
    (hs : (c.stamp child r).splitNode (c.nodes child).key child k =
      some (c', new)) (hv : (c'.nodes new).value = some v) :
    matchLoop r (fuel + 1) c node (t :: key) value = some (c', value ++ [v], new) := by
  subst hk
  simp only [matchLoop, hl, stamp_nodes_self, hlt, if_true]
  simp [hs, hv]

theorem matchLoop_full {r : Reading} {fuel : Nat} {c : RadixCache} {node child : NodeId} {t : Token}
    {key : List Token} {value : List (List Slot)} {v : List Slot} {k : Nat}
    (hl : (c.nodes node).children.lookup t = some child)
    (hk : keyMatch (c.nodes child).key (t :: key) = k) (hlt : ¬k < (c.nodes child).key.length)
    (hv : (c.nodes child).value = some v) :
    matchLoop r (fuel + 1) c node (t :: key) value =
      matchLoop r fuel (c.stamp child r) child
        ((t :: key).drop k) (value ++ [v]) := by
  subst hk
  simp only [matchLoop, hl, stamp_nodes_self, hlt, if_false]
  simp [hv]

theorem insertLoop_stop {r : Reading} {p : Int} {fuel : Nat} {c : RadixCache} {node : NodeId} {t : Token}
    {key : List Token} {value : List Slot} {total : Nat}
    (hl : (c.nodes node).children.lookup t = none) :
    insertLoop r p (fuel + 1) c node (t :: key) value total =
      some (c, node, t :: key, value, total) := by
  simp only [insertLoop, hl]

/-- The loop stops where the key ends or no child is filed under its next token. -/
theorem insertLoop_done {r : Reading} {p : Int} {fuel : Nat} {c : RadixCache} {node : NodeId} {key : List Token}
    {value : List Slot} {total : Nat} (hstuck : ∀ t, key[0]? = some t → (c.nodes node).children.lookup t = none) :
    insertLoop r p (fuel + 1) c node key value total = some (c, node, key, value, total) := by
  cases key with
  | nil => simp only [insertLoop]
  | cons t key => exact insertLoop_stop (hstuck t rfl)

theorem insertLoop_split {r : Reading} {p : Int} {fuel : Nat} {c c' : RadixCache}
    {node child new : NodeId} {t : Token} {key : List Token} {value : List Slot} {total k : Nat}
    (hl : (c.nodes node).children.lookup t = some child)
    (hk : keyMatch (c.nodes child).key (t :: key) = k) (hlt : k < (c.nodes child).key.length)
    (hs : (c.stamp child r).splitNode (c.nodes child).key child k =
      some (c', new)) :
    insertLoop r p (fuel + 1) c node (t :: key) value total =
      insertLoop r p fuel (c'.raisePriority new p) new
        ((t :: key).drop k) (value.drop k) (total + k) := by
  subst hk
  simp only [insertLoop, hl, stamp_nodes_self, hlt, if_true]
  simp [hs]

theorem insertLoop_full {r : Reading} {p : Int} {fuel : Nat} {c : RadixCache} {node child : NodeId}
    {t : Token} {key : List Token} {value : List Slot} {total k : Nat}
    (hl : (c.nodes node).children.lookup t = some child)
    (hk : keyMatch (c.nodes child).key (t :: key) = k) (hlt : ¬k < (c.nodes child).key.length) :
    insertLoop r p (fuel + 1) c node (t :: key) value total =
      insertLoop r p fuel ((c.stamp child r).raisePriority child p) child
        ((t :: key).drop k) (value.drop k) (total + k) := by
  subst hk
  simp only [insertLoop, hl, stamp_nodes_self, hlt, if_false]

/-! ## The matched part of an edge -/

section
variable {c : RadixCache} {T : Tree} (h : Rep c T)
include h

/-- The edge filed under the first token of the key shares at least that token. -/
theorem Rep.keyMatch_pos {node child : NodeId} {t : Token} (key : List Token)
    (hf : T.Filed node t child) : 0 < keyMatch (c.nodes child).key (t :: key) := by
  have hfirst := hf.2.2.2
  rw [h.key child hf.1]
  unfold PrefixTree.first at hfirst
  cases he : T.edge child with
  | nil => rw [he] at hfirst; cases hfirst
  | cons a l =>
    rw [he] at hfirst
    have : a.1 = t := by simpa using hfirst
    simp [keyMatch, this]

theorem Rep.take_keyMatch {child : NodeId} (key : List Token) (hc : child ∈ T.nodes) :
    ((T.edge child).take (keyMatch (c.nodes child).key key)).map Prod.fst =
      key.take (keyMatch (c.nodes child).key key) := by
  rw [List.map_take, ← h.key child hc, keyMatch_take]

theorem Rep.stuck {node m : NodeId} {t : Token} (hn : node ∈ T.nodes) (hm : m ∈ T.nodes)
    (hl : (c.nodes node).children.lookup t = none) : ¬T.letters node ++ [t] <+: T.letters m := by
  intro hle
  obtain ⟨d, hd, hdr, hdp, hdf, _⟩ := PrefixTree.child_of_letter hn hm hle
  rw [(h.children node hn t d).mpr ⟨hd, hdr, hdp, hdf⟩] at hl
  cases hl

end

/-- The next iteration after a split edge stops: the key leaves the edge there. -/
theorem Rep.split_lookup {c c' : RadixCache} {T : Tree} {child new : NodeId} {k : Nat} {key : List Token}
    {hnew : new ∉ T.nodes} {hc : child ∈ T.nodes} {hr : child ≠ T.root} {hk : 0 < k}
    {hk' : k < (T.edge child).length} (h : Rep c T) (h' : Rep c' (T.split new child k hnew hc hr hk hk'))
    (hkm : keyMatch (c.nodes child).key key = k) {t : Token} (ht : key[k]? = some t) :
    (c'.nodes new).children.lookup t = none := by
  cases hl : (c'.nodes new).children.lookup t with
  | none => rfl
  | some m =>
    have hf := PrefixTree.split_filed_new.mp ((h'.children new (Finset.mem_insert_self _ _) t m).mp hl)
    subst hkm
    refine absurd ht (keyMatch_differs (c.nodes child).key key t ?_)
    rw [h.key child hc] at hf ⊢
    rw [List.getElem?_map]
    exact hf.2

/-! ## The loops -/

/-- `last` is reached from `node` by the pairs `q`, the matched part of `key`. -/
structure Reached (c : RadixCache) (T : Tree) (path : List (Token × Slot)) (key : List Token)
    (last : NodeId) (q : List (Token × Slot)) : Prop where
  mem : last ∈ T.nodes
  path_eq : T.path last = path ++ q
  letters : q.map Prod.fst <+: key
  stuck : ∀ t, key[q.length]? = some t → (c.nodes last).children.lookup t = none

theorem Reached.step {c : RadixCache} {T : Tree} {path e q : List (Token × Slot)} {key : List Token}
    {last : NodeId} (hkey : e.map Prod.fst <+: key)
    (h : Reached c T (path ++ e) (key.drop e.length) last q) : Reached c T path key last (e ++ q) where
  mem := h.mem
  path_eq := by rw [h.path_eq, List.append_assoc]
  letters := by
    obtain ⟨r, hr⟩ := hkey
    have hl := h.letters
    rw [← hr, List.drop_append_of_le_length (by simp), List.drop_eq_nil_of_le (by simp),
      List.nil_append] at hl
    rw [List.map_append, ← hr]
    exact List.prefix_append_right_inj _ |>.mpr hl
  stuck t ht := by
    refine h.stuck t ?_
    rw [List.length_append] at ht
    rw [List.getElem?_drop]
    exact ht

theorem Reached.nil {c : RadixCache} {T : Tree} {node : NodeId} {key : List Token} (hn : node ∈ T.nodes)
    (hstuck : ∀ t, key[0]? = some t → (c.nodes node).children.lookup t = none) :
    Reached c T (T.path node) key node [] where
  mem := hn
  path_eq := by simp
  letters := by simp
  stuck := hstuck

theorem Reached.raisePriority {c : RadixCache} {T : Tree} {path q : List (Token × Slot)} {key : List Token}
    {last : NodeId} (h : Reached c T path key last q) (n : NodeId) (p : Int) :
    Reached (c.raisePriority n p) T path key last q where
  mem := h.mem
  path_eq := h.path_eq
  letters := h.letters
  stuck t ht := by
    have := h.stuck t ht
    by_cases e : last = n
    · rw [e, raisePriority_nodes_self]
      rw [e] at this
      exact this
    · rw [raisePriority_nodes_ne c p e]; exact this

/-- A walk stamps the edges it enters below `base`, and a node it adds cuts an
    entered edge that leaves the key. -/
structure Stamped (op : Nat) (key : List Token) (base : NodeId) (c : RadixCache) (T : Tree) (c' : RadixCache)
    (T' : Tree) : Prop where
  same : ∀ n ∈ T.nodes, n ≠ T.root → ¬T.Enters key n →
    (c'.nodes n).lastAccessTime = (c.nodes n).lastAccessTime
  keep : ∀ n ∈ T.nodes, (c.nodes n).lastAccessTime.op = op → (c'.nodes n).lastAccessTime.op = op
  used : ∀ n, T.Enters key n → T.path base <+: T.path (T.parent n) → (c'.nodes n).lastAccessTime.op = op
  new : ∀ n ∈ T'.nodes, n ∉ T.nodes → ∃ x, T.Enters key x ∧ ¬T.letters x <+: key ∧ T'.path n <+: T.path x

/-- An insertion raises the priority of the nodes on its key from `base` down, and a node it
    adds gets that of the edge it cuts. -/
structure Raised (p : Int) (key : List Token) (base : NodeId) (c : RadixCache) (T : Tree) (c' : RadixCache)
    (last : NodeId) : Prop where
  on : ∀ n ∈ T.nodes, T.path base <+: T.path n → T.letters n <+: key →
    (c'.nodes n).priority = max (c.nodes n).priority p
  off : ∀ n ∈ T.nodes, ¬(T.path base <+: T.path n ∧ T.letters n <+: key) →
    (c'.nodes n).priority = (c.nodes n).priority
  added : (last ∈ T.nodes ∧ c'.counter = c.counter) ∨ (last = c.counter ∧ c'.counter = c.counter + 1 ∧
    ∃ x, T.Enters key x ∧ ¬T.letters x <+: key ∧ (c'.nodes last).priority = max (c.nodes x).priority p)

section
variable {op : Nat} {c c₁ c' : RadixCache} {T T' : Tree} {node child : NodeId} {t : Token} {key : List Token}

theorem Rep.stamped_nil (h : Rep c T) (hn : node ∈ T.nodes)
    (hstuck : ∀ t, key[0]? = some t → (c.nodes node).children.lookup t = none) :
    Stamped op (T.letters node ++ key) node c T c T where
  same _ _ _ _ := rfl
  keep _ _ e := e
  new n hn hno := absurd hn hno
  used n he hle := by
    obtain ⟨d, t, hd, hk, _⟩ := he.below hn hle
    obtain ⟨rest, hrest⟩ := (List.prefix_append_right_inj _).mp hk
    have hl := hstuck t (by rw [← hrest]; rfl)
    rw [(h.children node hn t d).mpr hd] at hl
    cases hl

theorem enters_child (hf : T.Filed node t child) : T.Enters (T.letters node ++ t :: key) child :=
  ⟨hf.1, hf.2.1, t, hf.2.2.2, by rw [hf.2.2.1]; exact ⟨key, by simp⟩⟩

theorem enters_below_child {n : NodeId} (hn : node ∈ T.nodes) (hf : T.Filed node t child)
    (he : T.Enters (T.letters node ++ t :: key) n) (hle : T.path node <+: T.path (T.parent n)) :
    n = child ∨ T.path child <+: T.path (T.parent n) := by
  obtain ⟨d, u, hd, hk, hor⟩ := he.below hn hle
  obtain ⟨rest, hrest⟩ := (List.prefix_append_right_inj _).mp hk
  have htu : u = t := (List.cons.inj hrest).1
  rw [htu] at hd
  rw [hf.unique hd]
  exact hor

/-- The walk stamps `child` and goes on below it. -/
theorem Stamped.step (hn : node ∈ T.nodes) (hf : T.Filed node t child)
    (hsame : ∀ n, n ≠ child → (c₁.nodes n).lastAccessTime = (c.nodes n).lastAccessTime)
    (hop : (c₁.nodes child).lastAccessTime.op = op)
    (h : Stamped op (T.letters node ++ t :: key) child c₁ T c' T') :
    Stamped op (T.letters node ++ t :: key) node c T c' T' where
  same n hm hr he := (h.same n hm hr he).trans (hsame n fun e => he (e ▸ enters_child hf))
  keep n hm e := by
    refine h.keep n hm ?_
    by_cases hc : n = child
    · rw [hc]; exact hop
    · rw [hsame n hc]; exact e
  used n he hle := by
    rcases enters_below_child hn hf he hle with e | hle'
    · rw [e]; exact h.keep child hf.1 hop
    · exact h.used n he hle'
  new := h.new

theorem Stamped.cut {new : NodeId} {k : Nat} {hnew : new ∉ T.nodes} {hc : child ∈ T.nodes} {hr : child ≠ T.root}
    {hk : 0 < k} {hk' : k < (T.edge child).length} (hn : node ∈ T.nodes) (hf : T.Filed node t child)
    (hsame : ∀ n ∈ T.nodes, n ≠ child → (c'.nodes n).lastAccessTime = (c.nodes n).lastAccessTime)
    (hop : (c'.nodes child).lastAccessTime.op = op) (hleave : ¬T.letters child <+: T.letters node ++ t :: key) :
    Stamped op (T.letters node ++ t :: key) node c T c' (T.split new child k hnew hc hr hk hk') where
  same n hm _ he := hsame n hm fun e => he (e ▸ enters_child hf)
  keep n hm e := by
    by_cases hc : n = child
    · rw [hc]; exact hop
    · rw [hsame n hm hc]; exact e
  used n he hle := by
    rcases enters_below_child hn hf he hle with e | hle'
    · rw [e]; exact hop
    · obtain ⟨_, _, u, _, hk⟩ := he
      exact absurd ((hle'.map Prod.fst).trans ((List.prefix_append _ _).trans hk)) hleave
  new n hm hno := by
    have e : n = new := (Finset.mem_insert.mp hm).resolve_right hno
    rw [e]
    exact ⟨child, enters_child hf, hleave, PrefixTree.split_new_le⟩

theorem Stamped.root (hsame : ∀ n, n ≠ T.root → (c₁.nodes n).lastAccessTime = (c.nodes n).lastAccessTime)
    (hop : (c₁.nodes T.root).lastAccessTime.op = op)
    (h : Stamped op (T.letters T.root ++ key) T.root c₁ T c' T') :
    Stamped op key T.root c T c' T' := by
  have hnil : T.letters T.root = [] := by rw [PrefixTree.letters, T.path_root]; rfl
  rw [hnil, List.nil_append] at h
  refine ⟨fun n hm hr he => (h.same n hm hr he).trans (hsame n hr), fun n hm e => h.keep n hm ?_, h.used, h.new⟩
  by_cases hr : n = T.root
  · rw [hr]; exact hop
  · rw [hsame n hr]; exact e

theorem exists_child_on {n : NodeId} (hn : node ∈ T.nodes) (hm : n ∈ T.nodes) (hle : T.path node <+: T.path n)
    (hk : T.letters n <+: T.letters node ++ key) (hne : n ≠ node) :
    ∃ d u, T.Filed node u d ∧ key[0]? = some u ∧ T.path d <+: T.path n := by
  obtain ⟨d, hd, hdr, hdp, hdn⟩ := PrefixTree.child_towards hn hm hle (Ne.symm hne)
  obtain ⟨u, hu⟩ := PrefixTree.first_isSome hd hdr
  have hfirst := PrefixTree.letters_first_le hd hdr hu
  rw [hdp] at hfirst
  obtain ⟨rest, hrest⟩ := (List.prefix_append_right_inj _).mp (hfirst.trans ((hdn.map Prod.fst).trans hk))
  exact ⟨d, u, ⟨hd, hdr, hdp, hu⟩, by rw [← hrest]; rfl, hdn⟩

theorem below_child {n : NodeId} (hn : node ∈ T.nodes) (hf : T.Filed node t child) (hm : n ∈ T.nodes)
    (hle : T.path node <+: T.path n) (hk : T.letters n <+: T.letters node ++ t :: key) (hne : n ≠ node) :
    T.path child <+: T.path n := by
  obtain ⟨d, u, hd, hu, hdn⟩ := exists_child_on hn hm hle hk hne
  obtain rfl : t = u := Option.some.inj hu
  rwa [hf.unique hd]

theorem Raised.root {p : Int} {last : NodeId}
    (hroot : (c₁.nodes T.root).priority = max (c.nodes T.root).priority p)
    (hsame : ∀ n, n ≠ T.root → (c₁.nodes n).priority = (c.nodes n).priority) (hcounter : c₁.counter = c.counter)
    (h : Raised p (T.letters T.root ++ key) T.root c₁ T c' last) : Raised p key T.root c T c' last := by
  have hnil : T.letters T.root = [] := by rw [PrefixTree.letters, T.path_root]; rfl
  rw [hnil, List.nil_append] at h
  have hon : T.letters T.root <+: key := hnil ▸ List.nil_prefix
  refine ⟨fun n hm hb hk => ?_, fun n hm hnot => ?_, ?_⟩
  · rw [h.on n hm hb hk]
    by_cases e : n = T.root
    · rw [e, hroot, max_assoc, max_self]
    · rw [hsame n e]
  · rw [h.off n hm hnot]
    refine hsame n fun e => hnot ?_
    rw [e]
    exact ⟨List.prefix_refl _, hon⟩
  · rw [← hcounter]
    refine h.added.imp_right fun ⟨hl, hc', x, he, hx, hprio⟩ => ⟨hl, hc', x, he, hx, ?_⟩
    rw [hprio, hsame x he.2.1]

section
variable {p : Int} (hn : node ∈ T.nodes) (hp : p ≤ (c.nodes node).priority)
include hn hp

theorem Rep.raised_nil (h : Rep c T) (hstuck : ∀ t, key[0]? = some t → (c.nodes node).children.lookup t = none) :
    Raised p (T.letters node ++ key) node c T c node := by
  refine ⟨fun n hm hle hk => ?_, fun _ _ _ => rfl, Or.inl ⟨hn, rfl⟩⟩
  have e : n = node := by
    by_contra hne
    obtain ⟨d, u, hd, hu, _⟩ := exists_child_on hn hm hle hk hne
    have hl := hstuck u hu
    rw [(h.children node hn u d).mpr hd] at hl
    cases hl
  rw [e, max_eq_left hp]

theorem Raised.step {last : NodeId} (hf : T.Filed node t child)
    (hchild : (c₁.nodes child).priority = max (c.nodes child).priority p)
    (hsame : ∀ n, n ≠ child → (c₁.nodes n).priority = (c.nodes n).priority) (hcounter : c₁.counter = c.counter)
    (hon : T.letters child <+: T.letters node ++ t :: key)
    (h : Raised p (T.letters node ++ t :: key) child c₁ T c' last) :
    Raised p (T.letters node ++ t :: key) node c T c' last := by
  obtain ⟨hc, hcr, hcp, _⟩ := id hf
  have hbelow : T.path node <+: T.path child := hcp ▸ PrefixTree.parent_path_le hc hcr
  have hnode : node ≠ child := hcp ▸ PrefixTree.parent_ne hc hcr
  refine ⟨fun n hm hle hk => ?_, fun n hm hnot => ?_, ?_⟩
  · by_cases e : n = node
    · have hup : ¬T.path child <+: T.path node := fun hle' => by
        have := PrefixTree.path_parent_lt hc hcr
        rw [hcp] at this
        have := hle'.length_le
        omega
      rw [e, h.off node hn fun hb => hup hb.1, hsame node hnode, max_eq_left hp]
    · rw [h.on n hm (below_child hn hf hm hle hk e) hk]
      by_cases e' : n = child
      · rw [e', hchild, max_assoc, max_self]
      · rw [hsame n e']
  · rw [h.off n hm fun hb => hnot ⟨hbelow.trans hb.1, hb.2⟩]
    refine hsame n fun e => hnot ?_
    rw [e]
    exact ⟨hbelow, hon⟩
  · rw [← hcounter]
    refine h.added.imp_right fun ⟨hl, hc', x, he, hx, hprio⟩ => ⟨hl, hc', x, he, hx, ?_⟩
    rw [hprio, hsame x fun e => hx (e ▸ hon)]

theorem Raised.cut (hf : T.Filed node t child) (hnew : c.counter ∉ T.nodes)
    (hsame : ∀ n ∈ T.nodes, (c₁.nodes n).priority = (c.nodes n).priority)
    (hprio : (c₁.nodes c.counter).priority = (c.nodes child).priority) (hcounter : c₁.counter = c.counter + 1)
    (hleave : ¬T.letters child <+: T.letters node ++ t :: key) :
    Raised p (T.letters node ++ t :: key) node c T (c₁.raisePriority c.counter p) c.counter := by
  have hold : ∀ n ∈ T.nodes, ((c₁.raisePriority c.counter p).nodes n).priority = (c.nodes n).priority := by
    intro n hm
    have e : n ≠ c.counter := fun e => hnew (e ▸ hm)
    rw [raisePriority_nodes_ne _ _ e, hsame n hm]
  refine ⟨fun n hm hle hk => ?_, fun n hm _ => hold n hm,
    Or.inr ⟨rfl, hcounter, child, enters_child hf, hleave, ?_⟩⟩
  · by_cases e : n = node
    · rw [hold n hm, e, max_eq_left hp]
    · exact absurd (((below_child hn hf hm hle hk e).map Prod.fst).trans hk) hleave
  · rw [raisePriority_nodes_self, hprio]

end

theorem Stamped.raisePriority (h : Stamped op key node c T c' T') (n : NodeId) (p : Int) :
    Stamped op key node c T (c'.raisePriority n p) T' := by
  have hlat : ∀ m, ((c'.raisePriority n p).nodes m).lastAccessTime = (c'.nodes m).lastAccessTime := by
    intro m
    by_cases e : m = n
    · rw [e, raisePriority_nodes_self]
    · rw [raisePriority_nodes_ne c' p e]
  refine ⟨fun m hm hr he => ?_, fun m hm e => ?_, fun m he hle => ?_, h.new⟩
  · rw [hlat]; exact h.same m hm hr he
  · rw [hlat]; exact h.keep m hm e
  · rw [hlat]; exact h.used m he hle

end

theorem Rep.leaves {c : RadixCache} {T : Tree} {node child : NodeId} {t : Token} {key : List Token} {k : Nat}
    (h : Rep c T) (hf : T.Filed node t child) (hk : keyMatch (c.nodes child).key (t :: key) = k)
    (hlt : k < (c.nodes child).key.length) : ¬T.letters child <+: T.letters node ++ t :: key := by
  intro hle
  obtain ⟨hc, hcr, hcp, _⟩ := hf
  have hdiff := keyMatch_differs (c.nodes child).key (t :: key)
  rw [hk] at hdiff
  obtain ⟨u, hu⟩ : ∃ u, (c.nodes child).key[k]? = some u := ⟨_, List.getElem?_eq_getElem hlt⟩
  refine hdiff u hu ?_
  have hl : T.letters child = T.letters node ++ (c.nodes child).key := by
    rw [PrefixTree.letters, T.path_eq child hc hcr, List.map_append, h.key child hc, hcp]
    rfl
  rw [hl] at hle
  rw [PrefixTree.getElem?_of_isPrefix ((List.prefix_append_right_inj _).mp hle) hlt]
  exact hu

/-- The key leaves the edge of a child: the child is stamped and its edge cut there. -/
theorem Rep.cut {op : Nat} {r : Reading} (hr : r.op = op) {c : RadixCache} {T : Tree} {node child : NodeId}
    {t : Token} {key : List Token} {k : Nat} (h : Rep c T) (hn : node ∈ T.nodes)
    (hop : (c.nodes node).lastAccessTime.op = op) (hf : T.Filed node t child)
    (hk : keyMatch (c.nodes child).key (t :: key) = k) (hlt : k < (c.nodes child).key.length) :
    ∃ c' T', (c.stamp child r).splitNode (c.nodes child).key child k = some (c', c.counter) ∧
      Walk op (c, T) (c', T') ∧ Reached c' T' (T.path node) (t :: key) c.counter ((T.edge child).take k) ∧
      Stamped op (T.letters node ++ t :: key) node c T c' T' ∧ T'.parent c.counter = node ∧
      T'.edge c.counter = (T.edge child).take k ∧
      (∀ n ∈ T.nodes, (c'.nodes n).priority = (c.nodes n).priority) ∧
      (c'.nodes c.counter).priority = (c.nodes child).priority ∧ c'.counter = c.counter + 1 ∧
      (c'.nodes c.counter).lastAccessTime = c.clock ∧ c'.clock.op = c.clock.op := by
  have hkpos : 0 < k := hk ▸ h.keyMatch_pos key hf
  have htake := h.take_keyMatch (t :: key) hf.1
  rw [hk] at htake
  obtain ⟨hc, hcr, hcp, _⟩ := id hf
  have hpc := PrefixTree.parent_ne hc hcr
  have hk' : k < (T.edge child).length := by rw [← h.key_length hc]; exact hlt
  have hlen : ((T.edge child).take k).length = k := by rw [List.length_take]; omega
  have htouch : Micro op (c, T) (c.stamp child r, T) := .touch hc hr fun _ => by rw [hcp]; exact hop
  have h1 : Rep (c.stamp child r) T := htouch.rep h
  have hkey1 : ((c.stamp child r).nodes child).key = (c.nodes child).key := by rw [stamp_nodes_self]
  have hnode1 : (c.stamp child r).nodes node = c.nodes node := stamp_nodes_ne c _ (hcp ▸ hpc)
  have hchild1 : ((c.stamp child r).nodes child).lastAccessTime = r := by rw [stamp_nodes_self]
  have hother1 : ∀ n, n ≠ child → (c.stamp child r).nodes n = c.nodes n := fun n e => stamp_nodes_ne c _ e
  have hcounter1 : (c.stamp child r).counter = c.counter := rfl
  have hclock1 : (c.stamp child r).clock = c.clock := rfl
  have hprio1 : ∀ n, ((c.stamp child r).nodes n).priority = (c.nodes n).priority := fun n => by
    by_cases e : n = child
    · rw [e, stamp_nodes_self]
    · rw [stamp_nodes_ne c _ e]
  generalize c.stamp child r = c1 at htouch h1 hkey1 hnode1 hchild1 hother1 hcounter1 hclock1 hprio1
  obtain ⟨c', hs, h', hc', _, hprio, hlat, _, hsame⟩ := h1.splitNode hc hcr hkpos hk'
  refine ⟨c', T.split c1.counter child k h1.not_mem_counter hc hcr hkpos hk', by rw [← hkey1, hs, hcounter1],
    .tail (.single htouch) (.split h1 hc hcr hkpos hk' hs (by rw [hcp, hnode1]; exact hop)), ?_, ?_, ?_, ?_,
    fun n hm => ?_, ?_, ?_, ?_, ?_⟩
  · rw [← hcounter1]
    refine ⟨Finset.mem_insert_self _ _, ?_, ?_, fun u hu => ?_⟩
    · rw [PrefixTree.split_new.2.2, hcp]
    · rw [htake]; exact List.take_prefix _ _
    · rw [hlen] at hu
      exact Rep.split_lookup h1 h' (by rw [hkey1]; exact hk) hu
  · apply Stamped.cut hn hf
    · intro n hm e
      rw [(hsame n hm).2.1, hother1 n e]
    · rw [(hsame child hc).2.1, hchild1]; exact hr
    · exact h.leaves hf hk hlt
  · rw [← hcounter1, PrefixTree.split_new.1, hcp]
  · rw [← hcounter1, PrefixTree.split_new.2.1]
  · rw [(hsame n hm).2.2.2.2, hprio1]
  · rw [← hcounter1, hprio, hprio1]
  · rw [hc', hcounter1]
  · rw [← hcounter1, hlat, hclock1]
  · rw [hc', hclock1]

/-- The whole edge of a child is on the key: the child is stamped, and the walk
    goes on below it. -/
theorem Rep.whole {op : Nat} {r : Reading} (hr : r.op = op) {c : RadixCache} {T : Tree} {node child : NodeId}
    {t : Token} {key : List Token} {k fuel : Nat} (h : Rep c T) (hop : (c.nodes node).lastAccessTime.op = op)
    (hf : T.Filed node t child) (hk : keyMatch (c.nodes child).key (t :: key) = k)
    (hlt : ¬k < (c.nodes child).key.length) (hfuel : (t :: key).length < fuel + 1) :
    k = (T.edge child).length ∧ Micro op (c, T) (c.stamp child r, T) ∧
      (T.edge child).map Prod.fst <+: t :: key ∧ ((t :: key).drop k).length < fuel ∧
      T.letters child ++ (t :: key).drop k = T.letters node ++ t :: key := by
  have hkpos : 0 < k := hk ▸ h.keyMatch_pos key hf
  have htake := h.take_keyMatch (t :: key) hf.1
  obtain ⟨hc, hcr, hcp, _⟩ := id hf
  have hklen : k = (T.edge child).length := by
    have := (keyMatch_le (c.nodes child).key (t :: key)).1
    rw [hk, h.key_length hc] at this
    rw [h.key_length hc] at hlt
    omega
  rw [hk, hklen, List.take_length] at htake
  refine ⟨hklen, .touch hc hr fun _ => by rw [hcp]; exact hop, ?_, ?_, ?_⟩
  · rw [htake]; exact List.take_prefix _ _
  · rw [List.length_drop]
    rw [List.length_cons] at hfuel ⊢
    omega
  · rw [PrefixTree.letters, T.path_eq child hc hcr, List.map_append, htake, hcp, List.append_assoc, hklen,
      List.take_append_drop]
    rfl

theorem matchLoop_spec {op : Nat} {r : Reading} (hr : r.op = op) : ∀ (fuel : Nat) (c : RadixCache)
    (T : Tree) (node : NodeId) (key : List Token) (value : List (List Slot)), Rep c T →
    node ∈ T.nodes → (c.nodes node).lastAccessTime.op = op → c.clock.op = op → key.length < fuel →
    ∃ c' T' vals last q, matchLoop r fuel c node key value = some (c', value ++ vals, last) ∧
      Walk op (c, T) (c', T') ∧ Reached c' T' (T.path node) key last q ∧ vals.flatten = q.map Prod.snd ∧
      Stamped op (T.letters node ++ key) node c T c' T' ∧ (c'.nodes last).lastAccessTime.op = op := by
  intro fuel
  induction fuel with
  | zero => intro c T node key value _ _ _ _ hf; omega
  | succ fuel ih =>
    intro c T node key value h hn hop hclock hf
    cases key with
    | nil =>
      exact ⟨c, T, [], node, [], by simp [matchLoop], .refl, Reached.nil hn (by simp), rfl,
        h.stamped_nil hn (by simp), hop⟩
    | cons t key =>
      cases hl : (c.nodes node).children.lookup t with
      | none =>
        have hstuck : ∀ t', (t :: key)[0]? = some t' → (c.nodes node).children.lookup t' = none := by
          intro t' ht'
          cases ht'
          exact hl
        exact ⟨c, T, [], node, [], by simp [matchLoop_stop hl], .refl, Reached.nil hn hstuck, rfl,
          h.stamped_nil hn hstuck, hop⟩
      | some child =>
        have hfiled := (h.children node hn t child).mp hl
        generalize hk : keyMatch (c.nodes child).key (t :: key) = k
        by_cases hlt : k < (c.nodes child).key.length
        · obtain ⟨c', T', hs, hw, hreach, hst, _, hedge, _, _, _, hlat, _⟩ := h.cut hr hn hop hfiled hk hlt
          have hlop : (c'.nodes c.counter).lastAccessTime.op = op := by rw [hlat]; exact hclock
          refine ⟨c', T', [((T.edge child).take k).map Prod.snd], c.counter, (T.edge child).take k,
            matchLoop_split hl hk hlt hs ?_, hw, hreach, by simp, hst, hlop⟩
          rw [(hw.rep h).value _ hreach.mem, hedge]
        · obtain ⟨hklen, htouch, hedge, hdrop, hfull⟩ := h.whole hr hop hfiled hk hlt hf
          obtain ⟨hc, hcr, hcp, _⟩ := id hfiled
          obtain ⟨c', T', vals, last, q, heq, hw, hreach, hvals, hst, hlop⟩ :=
            ih (c.stamp child r) T child ((t :: key).drop k) (value ++ [(T.edge child).map Prod.snd])
              (htouch.rep h) hc (by rw [stamp_nodes_self]; exact hr) hclock hdrop
          refine ⟨c', T', (T.edge child).map Prod.snd :: vals, last, T.edge child ++ q, ?_,
            .head htouch hw, ?_, by simp [hvals], ?_, hlop⟩
          · rw [matchLoop_full hl hk hlt (h.value child hc), heq]
            simp
          · exact Reached.step hedge (by rw [← hcp, ← T.path_eq child hc hcr, ← hklen]; exact hreach)
          · rw [hfull] at hst
            exact hst.step hn hfiled (fun n e => by rw [stamp_nodes_ne c _ e])
              (by rw [stamp_nodes_self]; exact hr)

theorem insertLoop_cut {op : Nat} {r : Reading} {p : Int} (hr : r.op = op) {fuel : Nat} {c : RadixCache} {T : Tree}
    {node child : NodeId} {t : Token} {key : List Token} (value : List Slot) (total : Nat) (h : Rep c T)
    (hn : node ∈ T.nodes) (hop : (c.nodes node).lastAccessTime.op = op) (hclock : c.clock.op = op)
    (hprio : p ≤ (c.nodes node).priority) (hf : (t :: key).length < fuel + 1)
    (hl : (c.nodes node).children.lookup t = some child) {k : Nat}
    (hk : keyMatch (c.nodes child).key (t :: key) = k) (hlt : k < (c.nodes child).key.length) :
    ∃ c' T' last q, insertLoop r p (fuel + 1) c node (t :: key) value total =
        some (c', last, (t :: key).drop q.length, value.drop q.length, total + q.length) ∧
      Walk op (c, T) (c', T') ∧ Reached c' T' (T.path node) (t :: key) last q ∧
      Stamped op (T.letters node ++ t :: key) node c T c' T' ∧
      Raised p (T.letters node ++ t :: key) node c T c' last ∧
      (c'.nodes last).lastAccessTime.op = op ∧ p ≤ (c'.nodes last).priority := by
  have hfiled := (h.children node hn t child).mp hl
  obtain ⟨c', T', hs, hw, hreach, hst, hpar, _, hpr, hpnew, hcounter, hlat, _⟩ := h.cut hr hn hop hfiled hk hlt
  have hlen : ((T.edge child).take k).length = k := by
    rw [h.key_length hfiled.1] at hlt
    rw [List.length_take]
    omega
  have hraise : Micro op (c', T') (c'.raisePriority c.counter p, T') :=
    .raise hreach.mem fun _ => by rw [hpar, hpr node hn]; exact hprio
  have hreach' := hreach.raisePriority c.counter p
  obtain ⟨fuel, rfl⟩ : ∃ f, fuel = f + 1 := Nat.exists_eq_add_one.mpr (by
    rw [List.length_cons] at hf
    omega)
  have hra : Raised p (T.letters node ++ t :: key) node c T (c'.raisePriority c.counter p) c.counter :=
    .cut hn hprio hfiled h.not_mem_counter hpr hpnew hcounter (h.leaves hfiled hk hlt)
  refine ⟨c'.raisePriority c.counter p, T', c.counter, (T.edge child).take k, ?_, hw.tail hraise, hreach',
    hst.raisePriority c.counter p, hra, ?_, ?_⟩
  · -- the iteration after the split stops at the new node
    rw [insertLoop_split hl hk hlt hs, insertLoop_done, hlen]
    intro u hu
    apply hreach'.stuck u
    rw [hlen]
    rw [List.getElem?_drop] at hu
    exact hu
  · rw [raisePriority_nodes_self, hlat]
    exact hclock
  · rw [raisePriority_nodes_self]
    exact le_max_right _ _

theorem insertLoop_spec {op : Nat} {r : Reading} {p : Int} (hr : r.op = op) : ∀ (fuel : Nat)
    (c : RadixCache) (T : Tree) (node : NodeId) (key : List Token) (value : List Slot) (total : Nat),
    Rep c T → node ∈ T.nodes → (c.nodes node).lastAccessTime.op = op → c.clock.op = op →
    p ≤ (c.nodes node).priority → key.length < fuel →
    ∃ c' T' last q, insertLoop r p fuel c node key value total =
        some (c', last, key.drop q.length, value.drop q.length, total + q.length) ∧
      Walk op (c, T) (c', T') ∧ Reached c' T' (T.path node) key last q ∧
      Stamped op (T.letters node ++ key) node c T c' T' ∧ Raised p (T.letters node ++ key) node c T c' last ∧
      (c'.nodes last).lastAccessTime.op = op ∧ p ≤ (c'.nodes last).priority := by
  intro fuel
  induction fuel with
  | zero => intro c T node key value total _ _ _ _ _ hf; omega
  | succ fuel ih =>
    intro c T node key value total h hn hop hclock hprio hf
    cases key with
    | nil =>
      exact ⟨c, T, node, [], by simp [insertLoop], .refl, Reached.nil hn (by simp), h.stamped_nil hn (by simp),
        h.raised_nil hn hprio (by simp), hop, hprio⟩
    | cons t key =>
      cases hl : (c.nodes node).children.lookup t with
      | none =>
        have hstuck : ∀ t', (t :: key)[0]? = some t' → (c.nodes node).children.lookup t' = none := by
          intro t' ht'
          cases ht'
          exact hl
        exact ⟨c, T, node, [], by simp [insertLoop_stop hl], .refl, Reached.nil hn hstuck,
          h.stamped_nil hn hstuck, h.raised_nil hn hprio hstuck, hop, hprio⟩
      | some child =>
        have hfiled := (h.children node hn t child).mp hl
        generalize hk : keyMatch (c.nodes child).key (t :: key) = k
        by_cases hlt : k < (c.nodes child).key.length
        · exact insertLoop_cut hr value total h hn hop hclock hprio hf hl hk hlt
        · obtain ⟨hklen, htouch, hedge, hdrop, hfull⟩ := h.whole hr hop hfiled hk hlt hf
          obtain ⟨hc, hcr, hcp, _⟩ := id hfiled
          have hraise : Micro op (c.stamp child r, T) ((c.stamp child r).raisePriority child p, T) :=
            .raise hc fun _ => by rw [hcp, stamp_nodes_ne c _ (hcp ▸ PrefixTree.parent_ne hc hcr)]; exact hprio
          have hop1 : (((c.stamp child r).raisePriority child p).nodes child).lastAccessTime.op = op := by
            rw [raisePriority_nodes_self, stamp_nodes_self]; exact hr
          obtain ⟨c', T', last, q, heq, hw, hreach, hst, hra, hlop, hlp⟩ :=
            ih ((c.stamp child r).raisePriority child p) T child ((t :: key).drop k) (value.drop k) (total + k)
              (hraise.rep (htouch.rep h)) hc hop1 hclock
              (by rw [raisePriority_nodes_self]; exact le_max_right _ _)
              hdrop
          refine ⟨c', T', last, T.edge child ++ q, ?_, .head htouch (.head hraise hw), ?_, ?_, ?_, hlop, hlp⟩
          · rw [insertLoop_full hl hk hlt, heq, hklen]
            simp only [List.length_append, List.drop_drop, Nat.add_assoc]
          · exact Reached.step hedge (by rw [← hcp, ← T.path_eq child hc hcr, ← hklen]; exact hreach)
          · rw [hfull] at hst
            refine hst.step hn hfiled (fun n e => ?_) hop1
            rw [raisePriority_nodes_ne _ _ e, stamp_nodes_ne c _ e]
          · rw [hfull] at hra
            refine .step hn hprio hfiled ?_ (fun n e => ?_) ?_ ?_ hra
            · rw [raisePriority_nodes_self, stamp_nodes_self]
            · rw [raisePriority_nodes_ne _ _ e, stamp_nodes_ne c _ e]
            · rfl
            · rw [← hfull]
              exact List.prefix_append _ _

/-! ## The public operations -/

/-- The invariant of an enabled cache, whatever allocator is attached to it. -/
structure Wf (c : RadixCache) (T : Tree) (locks : List NodeId) : Prop where
  rep : Rep c T
  book : Book c T locks
  aged : Aged c T
  enabled : c.disable = false

theorem Rep.beginOp {c : RadixCache} {T : Tree} (h : Rep c T) : Rep c.beginOp T :=
  h.congr rfl (Nat.le_refl _) fun _ _ => ⟨rfl, rfl, rfl, rfl⟩

theorem Wf.beginOp {c : RadixCache} {T : Tree} {locks : List NodeId} (h : Wf c T locks) :
    Wf c.beginOp T locks where
  rep := h.rep.beginOp
  book := h.book.congr (fun _ _ => rfl) rfl rfl rfl
  aged := ⟨fun n hn => Nat.le_succ_of_le (h.aged.past n hn), h.aged.op, h.aged.priority⟩
  enabled := h.enabled

theorem Wf.walk {c c' : RadixCache} {T T' : Tree} {locks : List NodeId} {op : Nat} (h : Wf c T locks)
    (hop : c.clock.op = op) (hw : Walk op (c, T) (c', T')) : Wf c' T' locks where
  rep := hw.rep h.rep
  book := hw.book h.book
  aged := hw.aged hop h.aged
  enabled := hw.refined.disable.trans h.enabled

/-- `last` spells the longest prefix of `key` that the tree stores. -/
structure Located (c : RadixCache) (T : Tree) (key : List Token) (last : NodeId) : Prop where
  mem : last ∈ T.nodes
  letters : T.letters last <+: key
  stuck : ∀ t, key[(T.path last).length]? = some t → (c.nodes last).children.lookup t = none

theorem Reached.located {c : RadixCache} {T : Tree} {key : List Token} {last : NodeId}
    {q : List (Token × Slot)} (h : Reached c T [] key last q) : T.path last = q ∧ Located c T key last := by
  have hq : T.path last = q := h.path_eq
  refine ⟨hq, h.mem, ?_, ?_⟩
  · rw [PrefixTree.letters, hq]; exact h.letters
  · rw [hq]; exact h.stuck

theorem Located.longest {c : RadixCache} {T : Tree} {key : List Token} {last m : NodeId} {t : Token}
    (h : Located c T key last) (hr : Rep c T) (ht : T.letters last ++ [t] <+: key) (hm : m ∈ T.nodes) :
    ¬T.letters last ++ [t] <+: T.letters m := by
  refine hr.stuck h.mem hm (h.stuck t ?_)
  rw [← PrefixTree.letters_length,
    PrefixTree.getElem?_of_isPrefix ht (i := (T.letters last).length) (by simp)]
  simp

/-- The first primitives of both walks: read the clock and stamp the root. -/
theorem walk_root {op : Nat} {c : RadixCache} {T : Tree} (h : Rep c T) (hop : c.clock.op = op) :
    Walk op (c, T) ((c.monotonic.2.stamp c.rootNode c.clock), T) := by
  refine .tail (.single .tick) (.touch (h.root ▸ T.root_mem) hop fun hr => ?_)
  exact absurd h.root hr

theorem matchPrefix_spec {c : RadixCache} {T : Tree} {locks : List NodeId} (h : Wf c T locks)
    (key : List Token) : ∃ c' T' res, c.matchPrefix key = some (c', res) ∧
      Walk (c.clock.op + 1) (c.beginOp, T) (c', T') ∧ Located c' T' key res.lastNode ∧
      res.deviceIndices = (T'.path res.lastNode).map Prod.snd ∧
      Stamped (c.clock.op + 1) key T.root c.beginOp T c' T' ∧
      (key ≠ [] → (c'.nodes res.lastNode).lastAccessTime.op = c.clock.op + 1) := by
  have hroot := h.rep.root
  cases key with
  | nil =>
    refine ⟨c.beginOp, T, ⟨[], c.rootNode⟩, by simp [matchPrefix, RadixCache.beginOp], .refl,
      ⟨?_, ?_, ?_⟩, ?_, ?_, fun hne => absurd rfl hne⟩
    · rw [hroot]; exact T.root_mem
    · rw [PrefixTree.letters, hroot, T.path_root]; exact List.prefix_refl _
    · simp
    · rw [hroot, T.path_root]; rfl
    · have hst : Stamped (c.clock.op + 1) (T.letters T.root ++ []) T.root c.beginOp T c.beginOp T :=
        h.beginOp.rep.stamped_nil T.root_mem (by simp)
      rwa [PrefixTree.letters, T.path_root] at hst
  | cons t key =>
    have hw0 : Walk (c.clock.op + 1) (c.beginOp, T) (c.beginOp.monotonic.2.stamp c.rootNode c.beginOp.clock, T) :=
      walk_root h.beginOp.rep rfl
    have hop0 : ((c.beginOp.monotonic.2.stamp c.rootNode c.beginOp.clock).nodes c.rootNode).lastAccessTime.op =
        c.clock.op + 1 := by
      rw [stamp_nodes_self]; rfl
    have hsame0 : ∀ n, n ≠ T.root →
        ((c.beginOp.monotonic.2.stamp c.rootNode c.beginOp.clock).nodes n).lastAccessTime =
          (c.beginOp.nodes n).lastAccessTime := by
      intro n hn
      rw [stamp_nodes_ne _ _ (hroot ▸ hn)]
      rfl
    obtain ⟨c', T', vals, last, q, heq, hw, hreach, hvals, hst, hlop⟩ :=
      matchLoop_spec (show c.beginOp.clock.op = c.clock.op + 1 from rfl) ((t :: key).length + 1)
        (c.beginOp.monotonic.2.stamp c.rootNode c.beginOp.clock) T c.rootNode (t :: key) []
        (hw0.rep h.beginOp.rep) (hroot ▸ T.root_mem) hop0 rfl (Nat.lt_succ_self _)
    rw [hroot, T.path_root] at hreach
    rw [hroot] at hst hop0
    obtain ⟨hq, hloc⟩ := hreach.located
    refine ⟨c', T', ⟨vals.flatten, last⟩, ?_, .trans hw0 hw, hloc, by rw [hq]; exact hvals,
      .root (by rwa [hroot] at hsame0) hop0 hst, fun _ => hlop⟩
    have hd : c.beginOp.disable = false := h.enabled
    simp only [matchPrefix, hd, matchPrefixHelper]
    have heq' : matchLoop c.beginOp.clock ((t :: key).length + 1)
        ((c.beginOp.monotonic.2).stamp c.beginOp.rootNode c.beginOp.clock) c.beginOp.rootNode (t :: key) [] =
        some (c', vals, last) := heq
    simp only [monotonic, List.length_cons] at heq' ⊢
    simp [heq']

/-- `insert` walks like `match_prefix` and then adds what is left of the key as
    one leaf. -/
theorem insert_spec {c : RadixCache} {T : Tree} {locks : List NodeId} (h : Wf c T locks)
    (key : List Token) (value : Option (List Slot)) (p : Int) :
    ∃ c₁ T₁ last, Walk (c.clock.op + 1) (c.beginOp, T) (c₁, T₁) ∧ Located c₁ T₁ key last ∧
      Stamped (c.clock.op + 1) key T.root c.beginOp T c₁ T₁ ∧ Raised p key T.root c.beginOp T c₁ last ∧
      (c₁.nodes last).lastAccessTime.op = c.clock.op + 1 ∧ p ≤ (c₁.nodes last).priority ∧
      match key.drop (T₁.path last).length with
      | [] => c.insert key value p = some (c₁, (T₁.path last).length)
      | t :: _ => c.insert key value p = some
          (c₁.insertLeaf last t (key.drop (T₁.path last).length)
            ((value.getD key).drop (T₁.path last).length) p, (T₁.path last).length) := by
  have hroot := h.rep.root
  have hw0 : Walk (c.clock.op + 1) (c.beginOp, T) (c.beginOp.monotonic.2.stamp c.rootNode c.beginOp.clock, T) :=
    walk_root h.beginOp.rep rfl
  have hraise : Micro (c.clock.op + 1) (c.beginOp.monotonic.2.stamp c.rootNode c.beginOp.clock, T)
      ((c.beginOp.monotonic.2.stamp c.rootNode c.beginOp.clock).raisePriority c.rootNode p, T) :=
    .raise (hroot ▸ T.root_mem) fun hr => absurd hroot hr
  have hw1 : Walk (c.clock.op + 1) (c.beginOp, T)
      ((c.beginOp.monotonic.2.stamp c.rootNode c.beginOp.clock).raisePriority c.rootNode p, T) :=
    .tail hw0 hraise
  have hop1 : (((c.beginOp.monotonic.2.stamp c.rootNode c.beginOp.clock).raisePriority c.rootNode p).nodes
      c.rootNode).lastAccessTime.op = c.clock.op + 1 := by
    rw [raisePriority_nodes_self, stamp_nodes_self]; rfl
  have hsame1 : ∀ n, n ≠ c.rootNode →
      (((c.beginOp.monotonic.2.stamp c.rootNode c.beginOp.clock).raisePriority c.rootNode p).nodes
        n).lastAccessTime = (c.beginOp.nodes n).lastAccessTime := by
    intro n hn
    rw [raisePriority_nodes_ne _ _ hn, stamp_nodes_ne _ _ hn]
    rfl
  obtain ⟨c', T', last, q, heq, hw, hreach, hst, hra, hlop, hlp⟩ :=
    insertLoop_spec (p := p) (show c.beginOp.clock.op = c.clock.op + 1 from rfl) (key.length + 1)
      ((c.beginOp.monotonic.2.stamp c.rootNode c.beginOp.clock).raisePriority c.rootNode p) T c.rootNode key
      (value.getD key) 0 (hw1.rep h.beginOp.rep) (hroot ▸ T.root_mem) hop1 rfl
      (by rw [raisePriority_nodes_self]; exact le_max_right _ _) (Nat.lt_succ_self _)
  rw [hroot, T.path_root] at hreach
  rw [hroot] at hst hra hop1
  obtain ⟨hq, hloc⟩ := hreach.located
  have hra' : Raised p key T.root c.beginOp T c' last := by
    refine .root ?_ (fun n hn => ?_) ?_ hra
    · rw [raisePriority_nodes_self, stamp_nodes_self]
      rfl
    · rw [raisePriority_nodes_ne _ _ hn, stamp_nodes_ne _ _ hn]
      rfl
    · rfl
  refine ⟨c', T', last, .trans hw1 hw, hloc, .root (by rwa [hroot] at hsame1) hop1 hst, hra', hlop, hlp, ?_⟩
  rw [hq]
  have hd : c.beginOp.disable = false := h.enabled
  have heq' : insertLoop c.beginOp.clock p (key.length + 1)
      ((c.beginOp.monotonic.2.stamp c.beginOp.rootNode c.beginOp.clock).raisePriority c.beginOp.rootNode p)
      c.beginOp.rootNode key (value.getD key) 0 =
      some (c', last, key.drop q.length, (value.getD key).drop q.length, 0 + q.length) := heq
  cases hdrop : key.drop q.length with
  | nil =>
    rw [hdrop] at heq'
    simp only [RadixCache.insert, hd, insertHelper]
    simp only [monotonic] at heq' ⊢
    simp [heq']
  | cons t rest =>
    rw [hdrop] at heq'
    simp only [RadixCache.insert, hd, insertHelper]
    simp only [monotonic] at heq' ⊢
    simp [heq']

/-! ## Their effect on the tree -/

theorem Located.isLongest {c : RadixCache} {T : Tree} {key : List Token} {last : NodeId}
    (h : Located c T key last) (hr : Rep c T) : T.Longest key (T.path last) where
  pos := by
    by_cases e : T.path last = []
    · exact Or.inl e
    · exact Or.inr ⟨e, last, h.mem, List.prefix_refl _⟩
  letters := h.letters
  longest r hpos hle := by
    by_contra hlt
    have hlen : (T.path last).length < (r.map Prod.fst).length := by rw [List.length_map]; omega
    obtain ⟨_, m, hm, hrm⟩ := hpos
    -- the first letter of `r` past the path of `last`
    have hnext : T.letters last ++ [(r.map Prod.fst)[(T.path last).length]] <+: r.map Prod.fst := by
      have ht := List.prefix_iff_eq_take.mp (List.prefix_of_prefix_length_le h.letters hle
        (by rw [PrefixTree.letters_length]; omega))
      rw [PrefixTree.letters_length] at ht
      rw [ht, ← List.take_succ_eq_append_getElem hlen]
      exact List.take_prefix _ _
    exact h.longest hr (hnext.trans hle) hm (hnext.trans (hrm.map _))

/-- What `match_prefix` does: it returns the longest stored prefix and cuts edges. -/
theorem Wf.matchPrefix {c : RadixCache} {T : Tree} {locks : List NodeId} (h : Wf c T locks)
    (key : List Token) : ∃ c' T' res q, c.matchPrefix key = some (c', res) ∧ Wf c' T' locks ∧
      Refined c.beginOp T c' T' ∧ T.Longest key q ∧ res.deviceIndices = q.map Prod.snd ∧
      res.lastNode ∈ T'.nodes ∧ T'.path res.lastNode = q := by
  obtain ⟨c', T', res, heq, hw, hloc, hres, _⟩ := matchPrefix_spec h key
  have hwf := h.beginOp.walk rfl hw
  exact ⟨c', T', res, T'.path res.lastNode, heq, hwf, hw.refined,
    (hloc.isLongest hwf.rep).congr fun r => (hw.refined.pos r).symm, hres, hloc.mem, rfl⟩

theorem Wf.insertLeaf {c : RadixCache} {T : Tree} {locks : List NodeId} (h : Wf c T locks) {key : List Token}
    {last : NodeId} (hloc : Located c T key last) (hop : (c.nodes last).lastAccessTime.op = c.clock.op) {p : Int}
    (hp : p ≤ (c.nodes last).priority) {t : Token} {rest : List Token}
    (hdrop : key.drop (T.path last).length = t :: rest)
    {value : List Slot} (hlen : value.length = (t :: rest).length) :
    ∃ he hfree, Wf (c.insertLeaf last t (t :: rest) value p)
      (T.graft c.counter last ((t :: rest).zip value) h.rep.not_mem_counter hloc.mem he hfree) locks := by
  have hzip : (t :: rest).zip value ≠ [] := by
    refine List.ne_nil_of_length_pos ?_
    rw [List.length_zip, hlen, min_self]; exact Nat.succ_pos _
  have hlook := hloc.stuck t (by rw [← List.head?_drop, hdrop]; rfl)
  have hfree : ∀ m ∈ T.nodes, m ≠ T.root → T.parent m = last →
      T.first m ≠ ((t :: rest).zip value).head?.map Prod.fst := by
    rw [← List.head?_map, List.map_fst_zip (by rw [hlen])]
    exact h.rep.lookup_none hloc.mem hlook
  have hrep := h.rep.insertLeaf p hloc.mem hlook hlen hzip hfree
  obtain ⟨hc', -⟩ := insertLeaf_spec t (t :: rest) value p
    (fun e : last = c.counter => h.rep.not_mem_counter (e ▸ hloc.mem))
  refine ⟨hzip, hfree, hrep, h.book.insertLeaf h.rep hloc.mem hlen hzip hfree hrep,
    h.aged.insertLeaf h.rep hloc.mem hzip hfree hop hp, ?_⟩
  rw [hc']; exact h.enabled

theorem Located.graft_letters {c : RadixCache} {T : Tree} {key : List Token} {last new : NodeId}
    (h : Located c T key last) {t : Token} {rest : List Token} (hdrop : key.drop (T.path last).length = t :: rest)
    {value : List Slot} (hlen : value.length = (t :: rest).length) {hnew he hfree} :
    (T.graft new last ((t :: rest).zip value) hnew h.mem he hfree).letters new = key := by
  have hpre := List.prefix_iff_eq_take.mp h.letters
  rw [PrefixTree.letters_length] at hpre
  rw [PrefixTree.letters, PrefixTree.graft_new.2.2, List.map_append, List.map_fst_zip (by rw [hlen]), ← hdrop]
  exact (congrArg (· ++ _) hpre).trans (List.take_append_drop _ _)

/-- `T'` is `T` with the pairs `e` added below `q`, and some edges cut. -/
structure Grown (c : RadixCache) (T : Tree) (c' : RadixCache) (T' : Tree) (q e : List (Token × Slot)) :
    Prop where
  subset : T.nodes ⊆ T'.nodes
  root : T'.root = T.root
  path : ∀ n ∈ T.nodes, T'.path n = T.path n
  pos : ∀ r, T'.Pos r ↔ T.Pos r ∨ (r ≠ [] ∧ r <+: q ++ e)
  stored : T'.stored = (e.map Prod.snd : Multiset Slot) + T.stored
  strategy : c'.evictionStrategy = c.evictionStrategy
  allocator : c'.allocator = c.allocator
  op : c'.clock.op = c.clock.op

/-- What `insert` does: the part of the key that is not stored becomes a leaf. -/
theorem Wf.insert {c : RadixCache} {T : Tree} {locks : List NodeId} (h : Wf c T locks)
    (key : List Token) (value : Option (List Slot)) (p : Int)
    (hlen : (value.getD key).length = key.length) :
    ∃ c' T' q, c.insert key value p = some (c', q.length) ∧ Wf c' T' locks ∧ T.Longest key q ∧
      Grown c.beginOp T c' T' q ((key.drop q.length).zip ((value.getD key).drop q.length)) := by
  obtain ⟨c₁, T₁, last, hw, hloc, _, _, hop, hprio, heq⟩ := insert_spec h key value p
  have hwf := h.beginOp.walk rfl hw
  have href : Refined c.beginOp T c₁ T₁ := hw.refined
  have hlong : T.Longest key (T₁.path last) := (hloc.isLongest hwf.rep).congr fun r => (href.pos r).symm
  have hopc : c₁.clock.op = c.clock.op + 1 := href.op
  generalize hq : T₁.path last = q at heq hlong
  cases hdrop : key.drop q.length with
  | nil =>
    rw [hdrop] at heq
    refine ⟨c₁, T₁, q, heq, hwf, hlong, ?_⟩
    refine ⟨href.subset, href.root, href.path, fun r => ?_, ?_, href.strategy, href.allocator, href.op⟩
    · rw [href.pos r, hdrop, List.zip_nil_left, List.append_nil]
      refine ⟨Or.inl, fun hr => ?_⟩
      rcases hr with hr | ⟨hr, hrq⟩
      · exact hr
      · refine (hlong.pos.resolve_left fun e => ?_).mono hrq hr
        rw [e] at hrq
        exact hr (List.prefix_nil.mp hrq)
    · rw [href.stored, hdrop, List.zip_nil_left]; simp
  | cons t rest =>
    rw [hdrop] at heq
    have hvlen : ((value.getD key).drop q.length).length = (t :: rest).length := by
      rw [← hdrop, List.length_drop, List.length_drop, hlen]
    obtain ⟨hzip, hfree, hw'⟩ :=
      hwf.insertLeaf hloc (hop.trans hopc.symm) hprio (by rw [hq]; exact hdrop) hvlen
    obtain ⟨hc', -⟩ := insertLeaf_spec t (t :: rest) ((value.getD key).drop q.length) p
      (fun e : last = c₁.counter => hwf.rep.not_mem_counter (e ▸ hloc.mem))
    refine ⟨_, _, q, heq, hw', hlong, ?_⟩
    refine ⟨?_, ?_, ?_, ?_, ?_, ?_, ?_, ?_⟩
    · exact href.subset.trans (Finset.subset_insert _ _)
    · exact href.root
    · intro n hn
      rw [(PrefixTree.graft_old (href.subset hn)).2.2, href.path n hn]
    · intro r
      rw [PrefixTree.graft_pos, href.pos r, hq, hdrop]
    · rw [PrefixTree.graft_stored, href.stored, hdrop]
    · rw [hc']; exact href.strategy
    · rw [hc']; exact href.allocator
    · rw [hc']; exact href.op

end RadixCache

end SglangMlx
