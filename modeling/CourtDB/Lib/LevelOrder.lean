/-
# The levels of a search tree, from left to right

An inner node of a search tree has children and, between each two of them, a key.  `order` lists a
level of the tree from left to right with the keys between the nodes: a node's place is taken, one
level below, by its children with its keys between them (`row`), and keys keep their place.

Two nodes of a level are `Beside` each other, with a key between them, if the level lists them so.
They need not have the same parent (`Beside.across`).  In a tree whose nodes have one parent each a
node is beside at most one other on its left (`Beside.left_unique`).
-/
import Mathlib.Data.List.Nodup
import Mathlib.Data.List.Lattice

namespace LevelOrder

variable {ι κ : Type}

/-- What a level lists: its nodes, and the keys between them. -/
inductive Item (ι κ : Type)
  | node (i : ι)
  | sep (k : κ)

/-- The node of an item. -/
def Item.node? : Item ι κ → Option ι
  | node i => some i
  | sep _ => none

@[simp] theorem Item.node?_node (i : ι) : (node i : Item ι κ).node? = some i := rfl

@[simp] theorem Item.node?_sep (k : κ) : (sep k : Item ι κ).node? = none := rfl

/-- The children and keys of each inner node. -/
abbrev Tree (ι κ : Type) := ι → Option (List ι × List κ)

/-- Children with keys between them. -/
def row : List ι → List κ → List (Item ι κ)
  | [], _ => []
  | c :: _, [] => [.node c]
  | c :: cs, k :: ks => .node c :: .sep k :: row cs ks

/-- What takes the place of an item one level below. -/
def expand (t : Tree ι κ) : Item ι κ → List (Item ι κ)
  | .node i => ((t i).map fun e => row e.1 e.2).getD []
  | .sep k => [.sep k]

/-- The level that is `d` below the root. -/
def order (t : Tree ι κ) (root : ι) : ℕ → List (Item ι κ)
  | 0 => [.node root]
  | d + 1 => (order t root d).flatMap (expand t)

/-- On some level `a` is followed by `b`, with `k` between them. -/
def Beside (t : Tree ι κ) (root a : ι) (k : κ) (b : ι) : Prop :=
  ∃ d, [.node a, .sep k, .node b] <:+: order t root d

/-! ## 1. Rows -/

section Rows

variable {cs : List ι} {ks : List κ} {a b c : ι} {k : κ}

theorem node?_row (h : cs.length = ks.length + 1) : (row cs ks).filterMap Item.node? = cs := by
  induction cs generalizing ks with
  | nil => exact absurd h (by simp)
  | cons c cs ih =>
    cases ks with
    | nil =>
      obtain rfl : cs = [] := List.length_eq_zero_iff.mp (Nat.succ.inj h)
      rfl
    | cons k ks =>
      have hrest := ih (Nat.succ.inj h)
      simp [row, List.filterMap_cons, hrest]

/-- Neighbours in a row. -/
theorem infix_row {i : ℕ} (h : cs.length = ks.length + 1) (ha : cs[i]? = some a)
    (hk : ks[i]? = some k) (hb : cs[i + 1]? = some b) :
    [.node a, .sep k, .node b] <:+: row cs ks := by
  induction i generalizing cs ks with
  | zero =>
    match cs, ks, ha, hk, hb with
    | _ :: _ :: cs, _ :: ks, rfl, rfl, rfl =>
      cases ks with
      | nil => exact ⟨[], [], rfl⟩
      | cons k' ks => exact ⟨[], .sep k' :: row cs ks, rfl⟩
  | succ i ih =>
    match cs, ks, h, ha, hk, hb with
    | c :: cs, k' :: ks, h, ha, hk, hb =>
      obtain ⟨l₁, l₂, hrow⟩ := ih (Nat.succ.inj h) ha hk hb
      exact ⟨.node c :: .sep k' :: l₁, l₂, by simp [row, ← hrow]⟩

/-- A row starts with the first child. -/
theorem row_head (ha : cs.head? = some a) : ∃ l, row cs ks = .node a :: l := by
  match cs, ks, ha with
  | _ :: _, [], rfl => exact ⟨[], rfl⟩
  | _ :: cs, k :: ks, rfl => exact ⟨.sep k :: row cs ks, rfl⟩

/-- A row ends with the last child. -/
theorem row_getLast (h : cs.length = ks.length + 1) (ha : cs.getLast? = some a) :
    ∃ l, row cs ks = l ++ [.node a] := by
  induction cs generalizing ks with
  | nil => exact absurd ha (by simp)
  | cons c cs ih =>
    cases ks with
    | nil =>
      obtain rfl : cs = [] := List.length_eq_zero_iff.mp (Nat.succ.inj h)
      obtain rfl : c = a := by simpa using ha
      exact ⟨[], rfl⟩
    | cons k ks =>
      have hlen : cs.length = ks.length + 1 := Nat.succ.inj h
      have hne : cs ≠ [] := List.ne_nil_of_length_eq_add_one hlen
      rw [List.getLast?_cons_of_ne_nil hne] at ha
      obtain ⟨l, hl⟩ := ih hlen ha
      exact ⟨.node c :: .sep k :: l, by simp [row, hl]⟩

end Rows

/-! ## 2. Levels -/

variable {t t' : Tree ι κ} {root a a' b c p q : ι} {k k' : κ} {cs cs' : List ι} {ks ks' : List κ}
  {d : ℕ}

theorem expand_sep (k : κ) : expand t (.sep k) = [.sep k] := rfl

theorem expand_node (h : t p = some (cs, ks)) : expand t (.node p) = row cs ks := by
  rw [expand, h]
  rfl

/-- A level contains the row of each node of the level above. -/
theorem row_part (hp : .node p ∈ order t root d) (ht : t p = some (cs, ks)) :
    row cs ks <:+: order t root (d + 1) := by
  obtain ⟨l₁, l₂, hl⟩ := List.append_of_mem hp
  refine ⟨l₁.flatMap (expand t), l₂.flatMap (expand t), ?_⟩
  rw [order, hl, List.flatMap_append, List.flatMap_cons, expand_node ht, List.append_assoc]

/-- **Neighbours with one parent.** -/
theorem Beside.within {i : ℕ} (hp : .node p ∈ order t root d) (ht : t p = some (cs, ks))
    (hlen : cs.length = ks.length + 1) (ha : cs[i]? = some a) (hk : ks[i]? = some k)
    (hb : cs[i + 1]? = some b) : Beside t root a k b :=
  ⟨d + 1, (infix_row hlen ha hk hb).trans (row_part hp ht)⟩

/-- **Neighbours whose parents are neighbours.** -/
theorem Beside.across (h : Beside t root p k q) (hp : t p = some (cs, ks))
    (hq : t q = some (cs', ks')) (hlen : cs.length = ks.length + 1) (ha : cs.getLast? = some a)
    (hb : cs'.head? = some b) : Beside t root a k b := by
  obtain ⟨d, l₁, l₂, hl⟩ := h
  obtain ⟨r, hr⟩ := row_getLast hlen ha
  obtain ⟨r', hr'⟩ : ∃ r', row cs' ks' = .node b :: r' := row_head hb
  refine ⟨d + 1, l₁.flatMap (expand t) ++ r, r' ++ l₂.flatMap (expand t), ?_⟩
  rw [order, ← hl]
  simp [expand_node hp, expand_node hq, expand_sep, hr, hr']

/-- Where the nodes of the levels are the same, so are the levels. -/
theorem order_congr (h : ∀ d, ∀ i, .node i ∈ order t root d → t' i = t i) :
    order t' root = order t root := by
  funext d
  induction d with
  | zero => rfl
  | succ d ih =>
    rw [order, order, ih]
    refine List.flatMap_congr fun x hx => ?_
    cases x with
    | node i => rw [expand, expand, h d i hx]
    | sep k => rfl

/-! ## 3. Trees in layers -/

/-- The nodes of a level. -/
def nodes (t : Tree ι κ) (root : ι) (d : ℕ) : List ι := (order t root d).filterMap Item.node?

/-- The children of a node. -/
def kids (t : Tree ι κ) (p : ι) : List ι := ((t p).map Prod.fst).getD []

theorem mem_nodes : a ∈ nodes t root d ↔ .node a ∈ order t root d := by
  rw [nodes, List.mem_filterMap]
  constructor
  · rintro ⟨x, hx, ha⟩
    cases x with
    | sep k => exact absurd ha (by simp)
    | node i => exact Option.some.inj ha ▸ hx
  · exact fun ha => ⟨_, ha, rfl⟩

/-- Every node is one rank below its parents, and from rank `l` on it has one parent. -/
structure Layered (t : Tree ι κ) (rank : ι → ℕ) (l : ℕ) : Prop where
  length : ∀ p cs ks, t p = some (cs, ks) → cs.length = ks.length + 1
  nodup : ∀ p, (kids t p).Nodup
  descends : ∀ p, ∀ c ∈ kids t p, rank c + 1 = rank p
  unique : ∀ p q c, c ∈ kids t p → c ∈ kids t q → l ≤ rank c → p = q

namespace Layered

variable {rank : ι → ℕ} {l : ℕ} (h : Layered t rank l)

include h

/-- A level has the children of the nodes of the level above. -/
theorem nodes_succ : nodes t root (d + 1) = (nodes t root d).flatMap (kids t) := by
  have hexpand : ∀ x : Item ι κ,
      (expand t x).filterMap Item.node? = x.node?.toList.flatMap (kids t) := by
    intro x
    cases x with
    | sep k => rfl
    | node i =>
      cases ht : t i with
      | none => simp [expand, kids, ht]
      | some e =>
        obtain ⟨cs, ks⟩ := e
        rw [expand_node ht, node?_row (h.length i cs ks ht)]
        simp [kids, ht]
  rw [nodes, nodes, order]
  induction order t root d with
  | nil => rfl
  | cons x xs ih =>
    rw [List.flatMap_cons, List.filterMap_append, ih, hexpand, List.filterMap_cons]
    cases x with
    | sep k => rfl
    | node i => simp

/-- The depth of a node is what its rank lacks. -/
theorem rank_add (ha : a ∈ nodes t root d) : rank a + d = rank root := by
  induction d generalizing a with
  | zero =>
    obtain rfl : a = root := List.mem_singleton.mp ha
    rfl
  | succ d ih =>
    rw [h.nodes_succ] at ha
    obtain ⟨p, hp, hap⟩ := List.mem_flatMap.mp ha
    have hrank := h.descends p a hap
    have hroot := ih hp
    omega

/-- **No node is listed twice.** -/
theorem nodup_nodes (hl : l + d ≤ rank root) : (nodes t root d).Nodup := by
  induction d with
  | zero => exact List.nodup_singleton root
  | succ d ih =>
    rw [h.nodes_succ, List.nodup_flatMap]
    refine ⟨fun p _ => h.nodup p, (ih (by omega)).pairwise_of_forall_ne fun p hp q hq hne => ?_⟩
    intro c hcp hcq
    have hrank := h.descends p c hcp
    have hroot := h.rank_add hp
    exact hne (h.unique p q c hcp hcq (by omega))

/-- Neighbours are different. -/
theorem ne_of_beside (hab : Beside t root a k b) (hb : l ≤ rank b) : a ≠ b := by
  obtain ⟨d, hd⟩ := hab
  have hpart : [a, b] <:+: nodes t root d := hd.filterMap Item.node?
  have hrank := h.rank_add (hpart.subset (by simp : b ∈ [a, b]))
  have hnodup := (h.nodup_nodes (by omega)).sublist hpart.sublist
  rintro rfl
  exact (List.nodup_cons.mp hnodup).1 (List.mem_singleton_self a)

/-- Neighbours are on one level. -/
theorem rank_eq_of_beside (hab : Beside t root a k b) : rank a = rank b := by
  obtain ⟨d, hd⟩ := hab
  have hpart : [a, b] <:+: nodes t root d := hd.filterMap Item.node?
  have ha := h.rank_add (hpart.subset (by simp : a ∈ [a, b]))
  have hb := h.rank_add (hpart.subset (by simp : b ∈ [a, b]))
  omega

/-- **The left neighbour is unique.** -/
theorem left_unique (ha : Beside t root a k b) (ha' : Beside t root a' k' b) (hb : l ≤ rank b) :
    a = a' := by
  obtain ⟨d, hd⟩ := ha
  obtain ⟨d', hd'⟩ := ha'
  have hpart : [a, b] <:+: nodes t root d := hd.filterMap Item.node?
  have hpart' : [a', b] <:+: nodes t root d' := hd'.filterMap Item.node?
  have hrank := h.rank_add (hpart.subset (by simp : b ∈ [a, b]))
  have hrank' := h.rank_add (hpart'.subset (by simp : b ∈ [a', b]))
  obtain rfl : d = d' := by omega
  have hnodup : (nodes t root d).Nodup := h.nodup_nodes (by omega)
  -- `b` is listed once, so what is in front of it is the same
  obtain ⟨l₁, l₂, hl⟩ := hpart
  obtain ⟨l₁', l₂', hl'⟩ := hpart'
  have hsplit : (l₁ ++ [a]) ++ b :: l₂ = (l₁' ++ [a']) ++ b :: l₂' := by
    simpa using hl.trans hl'.symm
  have hnot : b ∉ l₁ ++ [a] ∧ b ∉ l₂ := by
    have hnd : ((l₁ ++ [a]) ++ b :: l₂).Nodup := by
      rw [← hl] at hnodup
      simpa using hnodup
    rw [List.nodup_middle, List.nodup_cons, List.mem_append, not_or] at hnd
    exact hnd.1
  have hfront := ((List.append_cons_inj_of_notMem hnot.1 hnot.2).mp hsplit).1
  exact (List.cons.inj (List.append_inj_right' hfront rfl)).1

end Layered

end LevelOrder
