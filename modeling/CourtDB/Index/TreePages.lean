/-
# Trees in the buffer pool

A program of the index changes pages and nodes together.  `PagesMove` says that it does so
consistently: afterwards the pages hold the nodes, new nodes are on pages that did not exist, and
every other page is as it was.  `Moves` adds what such a program does to the view: its pins are as
before, and no change is left undeclared.

`Holds` is the link between a page and a node: what `DeserializeFromPage` reads is the node.  The
page may have other bytes behind it; they are never read as part of the node.

The rules below are those for the steps that the functions of the tree are made of: loading a node,
storing it, and patching parent pointers.  They are rules of `wpr`, the precondition under a given
pattern of refusals, so each fetch has two continuations.  A program of the tree is verified by
putting them in the order in which its steps come.
-/
import CourtDB.Index.TreeShape

namespace CourtDB

/-! ## 1. Pages and nodes -/

/-- The pages `m` with the nodes `nodes` became `m'` with `nodes'`. -/
structure PagesMove (m : PageId → Option Page) (nodes : NodeMap) (m' : PageId → Option Page)
    (nodes' : NodeMap) : Prop where
  holds : Holds m' nodes'
  grows : ∀ id, (nodes id).isSome → (nodes' id).isSome
  fresh : ∀ id, (nodes' id).isSome → nodes id = none → m id = none
  frame : ∀ id, nodes' id = none → m' id = m id

namespace PagesMove

variable {m m₁ m' : PageId → Option Page} {nodes nodes₁ nodes' : NodeMap} {id : PageId} {p q : Page}
  {n : BTreeNode}

theorem refl (h : Holds m nodes) : PagesMove m nodes m nodes :=
  ⟨h, fun _ h => h, fun id h hn => absurd h (by rw [hn]; simp), fun _ _ => rfl⟩

theorem trans (h : PagesMove m nodes m₁ nodes₁) (h' : PagesMove m₁ nodes₁ m' nodes') :
    PagesMove m nodes m' nodes' where
  holds := h'.holds
  grows id hid := h'.grows id (h.grows id hid)
  fresh id hid hn := by
    cases h₁ : nodes₁ id with
    | some k => exact h.fresh id (by rw [h₁]; rfl) hn
    | none => exact (h.frame id h₁).symm.trans (h'.fresh id hid h₁)
  frame id hid := by
    have h₁ : nodes₁ id = none := by
      cases hn : nodes₁ id with
      | none => rfl
      | some k =>
        have hs := h'.grows id (by rw [hn]; rfl)
        rw [hid] at hs
        exact absurd hs (by simp)
    exact (h'.frame id hid).trans (h.frame id h₁)

/-- Where no node is new no page is. -/
theorem none_of_none (h : PagesMove m nodes m' nodes') (hholds : Holds m nodes)
    (hdom : ∀ id, (nodes' id).isSome → (nodes id).isSome) (hid : m id = none) : m' id = none := by
  cases hn : nodes' id with
  | none => rw [h.frame id hn, hid]
  | some k =>
    obtain ⟨k', hk'⟩ := Option.isSome_iff_exists.mp (hdom id (by rw [hn]; rfl))
    obtain ⟨p, hp, -⟩ := hholds id k' hk'
    exact absurd (hid.symm.trans hp) (by simp)

/-- A node is written. -/
theorem write (h : Holds m nodes) (hid : (nodes id).isSome) (hp : p.Stores n) :
    PagesMove m nodes (Function.update m id (some p)) (Function.update nodes id (some n)) where
  holds x k hx := by
    by_cases hxid : x = id
    · subst hxid
      rw [Function.update_self] at hx
      exact ⟨p, Function.update_self _ _ _, Option.some.inj hx ▸ hp⟩
    · rw [Function.update_of_ne hxid] at hx
      rw [Function.update_of_ne hxid]
      exact h x k hx
  grows x hx := by
    by_cases hxid : x = id
    · rw [hxid, Function.update_self]
      rfl
    · rwa [Function.update_of_ne hxid]
  fresh x hx hn := by
    by_cases hxid : x = id
    · rw [← hxid, hn] at hid
      exact absurd hid (by simp)
    · rw [Function.update_of_ne hxid, hn] at hx
      exact absurd hx (by simp)
  frame x hx := by
    by_cases hxid : x = id
    · rw [hxid, Function.update_self] at hx
      exact absurd hx (by simp)
    · exact Function.update_of_ne hxid _ _

/-- A new page was there, and a node is written on it. -/
theorem add (h : PagesMove (Function.update m id (some q)) nodes m₁ nodes₁) (hm : m id = none)
    (hp : p.Stores n) :
    PagesMove m nodes (Function.update m₁ id (some p)) (Function.update nodes₁ id (some n)) where
  holds x k hx := by
    by_cases hxid : x = id
    · subst hxid
      rw [Function.update_self] at hx
      exact ⟨p, Function.update_self _ _ _, Option.some.inj hx ▸ hp⟩
    · rw [Function.update_of_ne hxid] at hx
      rw [Function.update_of_ne hxid]
      exact h.holds x k hx
  grows x hx := by
    by_cases hxid : x = id
    · rw [hxid, Function.update_self]
      rfl
    · rw [Function.update_of_ne hxid]
      exact h.grows x hx
  fresh x hx hn := by
    by_cases hxid : x = id
    · rw [hxid]
      exact hm
    · rw [Function.update_of_ne hxid] at hx
      have hfresh := h.fresh x hx hn
      rwa [Function.update_of_ne hxid] at hfresh
  frame x hx := by
    by_cases hxid : x = id
    · rw [hxid, Function.update_self] at hx
      exact absurd hx (by simp)
    · rw [Function.update_of_ne hxid] at hx ⊢
      have hframe := h.frame x hx
      rwa [Function.update_of_ne hxid] at hframe

end PagesMove

/-- The view `v` with the nodes `nodes` became `v'` with `nodes'`, and every page is pinned as often
as before. -/
structure Moves (v : View) (nodes : NodeMap) (v' : View) (nodes' : NodeMap) : Prop where
  frames : v'.frames = v.frames
  pins : v'.pins = v.pins
  changed : ∀ id, v'.changed id = true → v.changed id = true
  pages : PagesMove v.pages nodes v'.pages nodes'

theorem Moves.refl {v : View} {nodes : NodeMap} (h : Holds v.pages nodes) :
    Moves v nodes v nodes := ⟨rfl, rfl, fun _ h => h, .refl h⟩

theorem Moves.trans {v v₁ v' : View} {nodes nodes₁ nodes' : NodeMap} (h : Moves v nodes v₁ nodes₁)
    (h' : Moves v₁ nodes₁ v' nodes') : Moves v nodes v' nodes' :=
  ⟨h'.frames.trans h.frames, h'.pins.trans h.pins, fun id hid => h.changed id (h'.changed id hid),
    h.pages.trans h'.pages⟩

/-! ## 2. Loading and storing

A node is loaded from a page that is pinned, and stored on a page that is pinned and has no slots:
writing a node over records would need more than the node. -/

namespace PoolM

variable {mode : PoolMode} {ps : Refusals} {v : View} {nodes : NodeMap} {id : PageId} {n p : Nat}

/-- The page behind a pointer to a node stores the node. -/
theorem wpr_readNode {m : BTreeNode} {Q : Page → Refusals × View → Prop} (hpin : 0 < v.pins id)
    (hholds : Holds v.pages nodes) (hm : nodes id = some m)
    (hQ : ∀ q : Page, q.Stores m → Q q (ps, v)) : wpr mode (readPage id) Q (ps, v) := by
  obtain ⟨q, hq, hstores⟩ := hholds id m hm
  exact wpr_readPage hpin hq fun p hp => hQ p (hstores.congr hp)

/-- A leaf is loaded as it was stored. -/
theorem LeafNode.wpr_load {m : LeafNode} {Q : LeafNode → Refusals × View → Prop}
    (hpin : 0 < v.pins id) (hholds : Holds v.pages nodes) (hm : nodes id = some (.leaf m))
    (hQ : Q m (ps, v)) : wpr mode (LeafNode.load id) Q (ps, v) := by
  unfold LeafNode.load
  rw [wpr, Program.wp_bind]
  refine wpr_readNode hpin hholds hm fun q hq => ?_
  rw [Program.wp_pure, hq.ofPage_leaf]
  exact hQ

/-- An inner node is loaded as it was stored. -/
theorem InternalNode.wpr_load {m : InternalNode} {Q : InternalNode → Refusals × View → Prop}
    (hpin : 0 < v.pins id) (hholds : Holds v.pages nodes) (hm : nodes id = some (.internal m))
    (hQ : Q m (ps, v)) : wpr mode (InternalNode.load id) Q (ps, v) := by
  unfold InternalNode.load
  rw [wpr, Program.wp_bind]
  refine wpr_readNode hpin hholds hm fun q hq => ?_
  rw [Program.wp_pure, hq.ofPage_internal.2]
  exact hQ

/-- A leaf is stored on a page without slots. -/
theorem LeafNode.wpr_store {m : LeafNode} {q : Page} {Q : Unit → Refusals × View → Prop}
    (hpin : 0 < v.pins id) (hq : v.pages id = some q) (hbare : q.Bare) (hfits : m.Fits)
    (hQ : ∀ p : Page, p.Stores (.leaf m) → Q () (ps, v.write id p)) :
    wpr mode (m.store id) Q (ps, v) := by
  unfold LeafNode.store
  rw [wpr, Program.wp_bind]
  refine wpr_readPage hpin hq fun p hp => ?_
  have hstores := Page.Stores.leaf (hbare.congr hp) hfits
  exact wpr_writePage hpin (by rw [hq]; rfl) hstores.bare.directoryFits (hQ _ hstores)

/-- Of an inner node the part is stored that its header counts. -/
theorem InternalNode.wpr_store {m : InternalNode} {q : Page} {Q : Unit → Refusals × View → Prop}
    (hpin : 0 < v.pins id) (hq : v.pages id = some q) (hbare : q.Bare)
    (htype : m.header.nodeType = .internalNode) (hpos : 0 < m.header.numKeys.toNat)
    (hle : m.header.numKeys.toNat ≤ 507) (hkeys : m.header.numKeys.toNat ≤ m.keys.length)
    (hchildren : m.header.numKeys.toNat < m.children.length)
    (hQ : ∀ p : Page, p.Stores (.internal m.stored) → Q () (ps, v.write id p)) :
    wpr mode (m.store id) Q (ps, v) := by
  unfold InternalNode.store
  rw [wpr, Program.wp_bind]
  refine wpr_readPage hpin hq fun p hp => ?_
  have hstores := Page.Stores.internal (hbare.congr hp) htype hpos hle hkeys hchildren
  exact wpr_writePage hpin (by rw [hq]; rfl) hstores.bare.directoryFits (hQ _ hstores)

/-- A node that fits is stored whole. -/
theorem InternalNode.wpr_storeFits {m : InternalNode} {q : Page}
    {Q : Unit → Refusals × View → Prop} (hpin : 0 < v.pins id) (hq : v.pages id = some q)
    (hbare : q.Bare) (hfits : m.Fits)
    (hQ : ∀ p : Page, p.Stores (.internal m) → Q () (ps, v.write id p)) :
    wpr mode (m.store id) Q (ps, v) := by
  have hchildren := hfits.children
  have hlen := hfits.length
  refine InternalNode.wpr_store hpin hq hbare hfits.type (hlen ▸ hfits.pos) (hlen ▸ hfits.le)
    hlen.ge (by omega) fun p hp => ?_
  rw [hfits.stored_eq] at hp
  exact hQ p hp

/-! ## 3. Patching

The source writes the parent pointer at its offset in the page, without loading the node.  On a page
that stores a node this is the node with another parent pointer. -/

/-- A page that was just made has no slots. -/
theorem bare_ofId (id : PageId) : (Page.ofId id).Bare := ⟨rfl, rfl⟩

/-- **A parent pointer is patched**, or the child could not be fetched. -/
theorem wpr_updateParentPointer {s : LinkState} {c : PageId} {Q : Unit → Refusals × View → Prop}
    (hmode : mode.Allows n p) (hv : v.frames = n) (hw : v.Within p) (h0 : c ≠ 0)
    (hc : (s.nodes c).isSome) (hholds : Holds v.pages s.nodes) (hpin : v.pins c ≤ 1)
    (hQ : ∀ v', Moves v s.nodes v' (s.patch id c).nodes → v'.Within p →
      Q () ((s.patch id c).refusals, v')) :
    wpr mode (updateParentPointer id c) Q (s.refusals, v) := by
  obtain ⟨m, hm⟩ := Option.isSome_iff_exists.mp hc
  obtain ⟨q, hq, hstores⟩ := hholds c m hm
  unfold updateParentPointer
  rw [wpr, Program.wp_bind]
  refine wpr_fetchPage hmode hv hw h0 (by rw [hq]; rfl) hpin (fun hr => ?_) fun hr => ?_
  · -- refused: the node keeps its pointer
    have hskip : s.patch id c = s.next := if_pos hr
    rw [hskip] at hQ
    exact hQ v (.refl hholds) hw
  · -- served: the child is read, patched, written and given back
    have hpatch : s.patch id c = { s.next with
        nodes := Function.update s.nodes c ((s.nodes c).map (BTreeNode.setParent id)) } := by
      unfold LinkState.patch
      rw [if_neg (by rw [LinkState.refused, hr]; exact Bool.false_ne_true)]
    simp only [if_true]
    rw [Program.wp_bind]
    have hpos : 0 < (v.pin c).pins c := by simp [View.pin]
    refine wpr_readNode hpos hholds hm fun p' hp' => ?_
    have hset := hp'.setParentPageId id
    rw [Program.wp_bind]
    refine wpr_writePage hpos (by simp [View.pin, hq]) hset.bare.directoryFits ?_
    rw [Program.wp_bind]
    refine wpr_unpinPage (by simp [View.pin, View.write]) (fun _ _ => rfl) ?_
    -- of the view only the page has changed
    rw [Program.wp_pure]
    have hview : ((v.pin c).write c (p'.setParentPageId id)).unpin c true
        = { v with
            pages := Function.update v.pages c (some (p'.setParentPageId id))
            changed := Function.update v.changed c false } := by
      simp [View.pin, View.write, View.unpin]
    rw [hview]
    rw [hpatch] at hQ
    -- what was written is given back at once, so it is not among the changes
    refine hQ _ ⟨rfl, rfl, fun i hi => ?_, ?_⟩ (hw.of_subset (fun i hi => ?_) fun _ h => h)
    · by_cases hic : i = c
      · rw [hic] at hi
        exact absurd hi (by simp)
      · simpa [Function.update_of_ne hic] using hi
    · -- the page stores the node with its new pointer
      simp only [hm, Option.map_some]
      exact PagesMove.write hholds hc hset
    · -- and no page was added
      have hne : i ≠ c := by
        rintro rfl
        rw [hq] at hi
        exact absurd hi (by simp)
      exact (Function.update_of_ne hne _ _).trans hi

/-- **The loop of patches.** -/
theorem wpr_updateParentPointers {Q : Unit → Refusals × View → Prop} (hmode : mode.Allows n p)
    (cs : List PageId) : ∀ {s : LinkState} {v : View}, v.frames = n → v.Within p →
      (∀ c ∈ cs, c ≠ 0 ∧ (s.nodes c).isSome ∧ v.pins c ≤ 1) → Holds v.pages s.nodes →
      (∀ v', Moves v s.nodes v' (cs.foldl (LinkState.patch id) s).nodes → v'.Within p →
        Q () ((cs.foldl (LinkState.patch id) s).refusals, v')) →
      wpr mode (cs.forM (updateParentPointer id)) Q (s.refusals, v) := by
  induction cs with
  | nil => exact fun _ hw _ hholds hQ => hQ _ (.refl hholds) hw
  | cons c cs ih =>
    intro s v hv hw hcs hholds hQ
    -- the first child, then the rest on the nodes it leaves
    obtain ⟨⟨h0, hc, hpin⟩, hrest⟩ := List.forall_mem_cons.mp hcs
    change Program.wp _ (updateParentPointer id c >>= fun _ => cs.forM _) _ _
    rw [Program.wp_bind]
    refine wpr_updateParentPointer hmode hv hw h0 hc hholds hpin fun v' hmoves hw' => ?_
    refine ih (hmoves.frames.trans hv) hw' (fun d hd => ?_) hmoves.pages.holds fun v'' hm hw'' => ?_
    · obtain ⟨hd0, hds, hdp⟩ := hrest d hd
      exact ⟨hd0, hmoves.pages.grows d hds, hmoves.pins ▸ hdp⟩
    · exact hQ v'' (hmoves.trans hm) hw''

end PoolM

end CourtDB
