/-
# Scanning a heap file

What a scan from `Begin()` has to visit is `contents`: for each page of the chain, in order, the
slots that hold a record.  The iterator treats the first page, the rest of a page and the later
pages by different code; `Visits` is the one invariant behind all three.  It says what the iterator
will still visit, and every way to advance it takes exactly the first record off.

`contents` lists each record once (`contents_nodup`), and nothing else (`mem_contents`), so a scan
is complete.

How an iterator gets at its pages differs from one use to the other.  The pool may be quiet, or
others may hold pages in it; fetches may be refused; the account may be of pins or of answers.  So
what the iterator relies on is a structure (`Access`): when it is free it can fetch a page of the
chain, it is then on that page, can read it, and can give it back.  The lemmas about the three loops
are proved once over `Access`, and each use supplies its own.

A refused fetch ends an iterator as the end of the chain does, and the caller cannot tell the two
apart.  `Goes` has both cases.
-/
import CourtDB.Heap.HeapOps

namespace CourtDB

/-! ## 1. The records of a page, in order

The loop of the source tries one slot after the other.  `liveFrom` is the list of the slots at which
it would stop. -/

namespace Page

variable {p q : Page}

/-- The slots from the index `a` on that hold a record. -/
def liveFrom (p : Page) (a : Nat) : List UInt16 :=
  (((List.range p.getNumSlots.toNat).drop a).map UInt16.ofNat).filter
    fun slotId => (p.getRecord slotId).isSome

/-- `NextRecord` finds the first record of a page from a slot on. -/
theorem nextRecord_eq (start : UInt16) : p.nextRecord start = (p.liveFrom start.toNat).head? := by
  rw [liveFrom, List.head?_filter]
  rfl

theorem liveFrom_of_le {a : Nat} (h : p.getNumSlots.toNat ≤ a) : p.liveFrom a = [] := by
  rw [liveFrom, List.drop_eq_nil_of_le (by rw [List.length_range]; exact h)]
  rfl

theorem liveFrom_of_lt {a : Nat} (h : a < p.getNumSlots.toNat) :
    p.liveFrom a
      = if (p.getRecord (UInt16.ofNat a)).isSome then UInt16.ofNat a :: p.liveFrom (a + 1)
        else p.liveFrom (a + 1) := by
  have ha : a < (List.range p.getNumSlots.toNat).length := by rw [List.length_range]; exact h
  rw [liveFrom, List.drop_eq_getElem_cons ha, List.getElem_range, List.map_cons, List.filter_cons]
  rfl

/-- The first of these slots, and what comes after it. -/
theorem liveFrom_cases (p : Page) (a : Nat) :
    p.liveFrom a = [] ∨ ∃ s : UInt16, s.toNat < p.getNumSlots.toNat ∧
      p.liveFrom a = s :: p.liveFrom (s.toNat + 1) := by
  induction hk : p.getNumSlots.toNat - a generalizing a with
  | zero => exact .inl (liveFrom_of_le (by omega))
  | succ k ih =>
    have ha : a < p.getNumSlots.toNat := by omega
    have ha' : (UInt16.ofNat a).toNat = a :=
      UInt16.toNat_ofNat_of_lt' (ha.trans p.getNumSlots.toNat_lt)
    rw [liveFrom_of_lt ha]
    split
    · exact .inr ⟨UInt16.ofNat a, by rw [ha']; exact ha, by rw [ha']⟩
    · exact ih (a + 1) (by omega)

/-- From slot 0 on all records of the page are listed. -/
theorem mem_liveFrom {s : UInt16} : s ∈ p.liveFrom 0 ↔ (p.getRecord s).isSome := by
  simp only [liveFrom, List.drop_zero, List.mem_filter, List.mem_map, List.mem_range,
    and_iff_right_iff_imp]
  intro hs
  refine ⟨s.toNat, ?_, UInt16.ofNat_toNat⟩
  by_contra hge
  have hle : p.header.numSlots ≤ s := UInt16.le_iff_toNat_le.mpr (by
    rw [getNumSlots] at hge
    omega)
  rw [getRecord, if_pos hle] at hs
  exact absurd hs (by simp)

theorem liveFrom_nodup (a : Nat) : (p.liveFrom a).Nodup := by
  refine List.Nodup.filter _ (List.Nodup.map_on (fun i hi j hj hij => ?_)
    (List.nodup_range.sublist (List.drop_sublist _ _)))
  have hbound : ∀ i ∈ (List.range p.getNumSlots.toNat).drop a, i < 2 ^ 16 := fun i hi =>
    (List.mem_range.mp (List.mem_of_mem_drop hi)).trans p.getNumSlots.toNat_lt
  have h := congrArg UInt16.toNat hij
  rwa [UInt16.toNat_ofNat_of_lt' (hbound i hi), UInt16.toNat_ofNat_of_lt' (hbound j hj)] at h

theorem SameContent.liveFrom (h : SameContent p q) (hp : p.Layout) (a : Nat) :
    p.liveFrom a = q.liveFrom a := by
  have hrec : ∀ s, p.getRecord s = q.getRecord s := h.getRecord hp
  unfold Page.liveFrom getNumSlots
  simp only [hrec, h.header]

/-- Pages of the same content are walked in the same way. -/
theorem SameContent.nextRecord (h : SameContent p q) (hp : p.Layout) (start : UInt16) :
    p.nextRecord start = q.nextRecord start := by
  rw [nextRecord_eq, nextRecord_eq, h.liveFrom hp]

/-- What a scan reads on a page from the slot index `a` on. -/
def scanFrom (p : Page) (id : PageId) (a : Nat) : List (RID × Option (List UInt8)) :=
  (p.liveFrom a).map fun s => (⟨id, s⟩, p.getRecord s)

end Page

/-! ## 2. What a scan has to visit

Pages of a chain are different, and so are the slots of a page, so no record id is listed twice. -/

/-- The records on a list of pages. -/
def scanPages (m : PageId → Option Page) (l : List PageId) : List (RID × Option (List UInt8)) :=
  l.flatMap fun id => ((m id).map fun q => q.scanFrom id 0).getD []

namespace HeapState

variable {mode : PoolMode} {n : Nat} {s : HeapState}

/-- The records of a heap file, in the order of a scan. -/
def contents (s : HeapState) : List (RID × Option (List UInt8)) := scanPages s.pages s.chain

/-- The contents are the records that are stored. -/
theorem mem_contents (e : RID × Option (List UInt8)) :
    e ∈ s.contents ↔ s.stored e.1 = e.2 ∧ e.2.isSome := by
  obtain ⟨⟨id, slot⟩, data⟩ := e
  simp only [contents, scanPages, List.mem_flatMap, stored]
  constructor
  · rintro ⟨i, hi, hmem⟩
    cases hq : s.pages i with
    | none => rw [hq] at hmem; exact absurd hmem List.not_mem_nil
    | some q =>
      rw [hq, Option.map_some, Option.getD_some, Page.scanFrom, List.mem_map] at hmem
      obtain ⟨slot', hslot, he⟩ := hmem
      obtain ⟨⟨rfl, rfl⟩, rfl⟩ : (i = id ∧ slot' = slot) ∧ q.getRecord slot' = data := by
        simpa using he
      refine ⟨?_, Page.mem_liveFrom.mp hslot⟩
      rw [if_pos hi, hq]
      rfl
  · rintro ⟨hst, hsome⟩
    split at hst
    · rename_i hid
      refine ⟨id, hid, ?_⟩
      cases hq : s.pages id with
      | none =>
        rw [hq] at hst
        rw [← hst] at hsome
        exact absurd hsome (by simp)
      | some q =>
        rw [hq] at hst
        have hrec : q.getRecord slot = data := hst
        rw [Option.map_some, Option.getD_some, Page.scanFrom, List.mem_map]
        exact ⟨slot, Page.mem_liveFrom.mpr (hrec ▸ hsome), by rw [hrec]⟩
    · rw [← hst] at hsome
      exact absurd hsome (by simp)

/-- No record id comes twice: page ids do not, and neither do slots of a page. -/
theorem contents_nodup (h : s.Ok) : (s.contents.map Prod.fst).Nodup := by
  have hmap : s.contents.map Prod.fst
      = s.chain.flatMap fun id => ((s.pages id).map fun q => (q.liveFrom 0).map (RID.mk id)).getD
          [] := by
    rw [contents, scanPages, List.map_flatMap]
    refine List.flatMap_congr fun id _ => ?_
    cases s.pages id with
    | none => rfl
    | some q => simp [Page.scanFrom]
  have hpage : ∀ id, ∀ rid ∈ ((s.pages id).map fun q => (q.liveFrom 0).map (RID.mk id)).getD [],
      rid.pageId = id := by
    intro id rid hrid
    cases hq : s.pages id with
    | none => rw [hq] at hrid; exact absurd hrid List.not_mem_nil
    | some q =>
      rw [hq, Option.map_some, Option.getD_some] at hrid
      obtain ⟨slot, -, rfl⟩ := List.mem_map.mp hrid
      rfl
  rw [hmap, List.nodup_flatMap]
  refine ⟨fun id _ => ?_, h.nodup.imp fun hne rid h₁ h₂ => hne ?_⟩
  · cases s.pages id with
    | none => exact List.nodup_nil
    | some q => exact (Page.liveFrom_nodup 0).map fun a b hab => (RID.mk.inj hab).2
  · rw [← hpage _ rid h₁, ← hpage _ rid h₂]

/-! ## 3. The iterator

The three loops are walks along the same list.  The page that the iterator is on is pinned, and it
is the only one. -/

open PoolM HeapFileIterator

section Iterator

variable {τ : Type} {spec : Program.Spec PoolCall PoolCall.Result τ} {refusing : Prop}
  {Free : τ → Prop} {On : PageId → τ → Prop}

/-- What the iterator relies on: in a state that is `Free` it can fetch a page of the chain, unless
the pool is `refusing`, and is then `On` the page until it gives it back. -/
structure Access (spec : Program.Spec PoolCall PoolCall.Result τ) (s : HeapState) (refusing : Prop)
    (Free : τ → Prop) (On : PageId → τ → Prop) : Prop where
  fetch : ∀ {id : PageId} {t : τ} {Q : Bool → τ → Prop}, id ∈ s.chain → Free t →
    (∀ t', On id t' → Q true t') → (refusing → Q false t) → Program.wp spec (fetchPage id) Q t
  read : ∀ {id : PageId} {q : Page} {t : τ} {Q : Page → τ → Prop}, s.pages id = some q → On id t →
    (∀ p : Page, p.SameContent q → Q p t) → Program.wp spec (readPage id) Q t
  unpin : ∀ {id : PageId} {t : τ} {Q : Bool → τ → Prop}, On id t →
    (∀ t', Free t' → Q true t') → Program.wp spec (unpinPage id false) Q t

/-- What the iterator will still visit: nothing, and it holds no page; or the record it is on,
which is on a page it holds, the rest of that page and the pages after it. -/
inductive Visits (s : HeapState) (Free : τ → Prop) (On : PageId → τ → Prop) :
    HeapFileIterator → τ → List (RID × Option (List UInt8)) → Prop
  | ended {it : HeapFileIterator} {t : τ} (h : it.valid = false) (ht : Free t) :
      Visits s Free On it t []
  | on {id : PageId} {slotId : UInt16} {q : Page} {post : List PageId} {t : τ}
      (hq : s.pages id = some q) (hlay : q.Layout) (hslot : slotId.toNat < q.getNumSlots.toNat)
      (hlink : Segment (linkOf s.pages) q.getNextPageId post invalidPageId)
      (hpost : post <:+ s.chain) (ht : On id t) :
      Visits s Free On (.onRecord id slotId) t
        ((⟨id, slotId⟩, q.getRecord slotId) ::
          (q.scanFrom id (slotId.toNat + 1) ++ scanPages s.pages post))

/-- The iterator has `todo` to visit, or a page of it was refused and it has nothing to visit. -/
def Goes (s : HeapState) (refusing : Prop) (Free : τ → Prop) (On : PageId → τ → Prop)
    (todo : List (RID × Option (List UInt8))) (it : Option HeapFileIterator) (t : τ) : Prop :=
  ∃ it' rest, it = some it' ∧ Visits s Free On it' t rest ∧ (rest = todo ∨ refusing ∧ rest = [])

/-- An iterator with records before it goes on to them. -/
theorem Visits.goes {it : HeapFileIterator} {t : τ} {todo : List (RID × Option (List UInt8))}
    (h : Visits s Free On it t todo) : Goes s refusing Free On todo (some it) t :=
  ⟨it, todo, rfl, h, .inl rfl⟩

/-- Where fetches may be refused, an iterator may end early. -/
theorem Goes.of_refused {it : HeapFileIterator} {t : τ} (h : it.valid = false) (ht : Free t)
    (hrefusing : refusing) (todo : List (RID × Option (List UInt8))) :
    Goes s refusing Free On todo (some it) t :=
  ⟨it, [], rfl, .ended h ht, .inr ⟨hrefusing, rfl⟩⟩

/-- The iterator goes to the first of the slots that are left on a page it holds. -/
theorem visits_first {id : PageId} {q : Page} {post : List PageId} {a : Nat} {slotId : UInt16}
    {t : τ} (hq : s.pages id = some q) (hlay : q.Layout)
    (hlink : Segment (linkOf s.pages) q.getNextPageId post invalidPageId)
    (hpost : post <:+ s.chain) (hfirst : (q.liveFrom a).head? = some slotId) (ht : On id t) :
    Visits s Free On (.onRecord id slotId) t (q.scanFrom id a ++ scanPages s.pages post) := by
  rcases q.liveFrom_cases a with hnil | ⟨slot, hlt, heq⟩
  · rw [hnil] at hfirst
    exact absurd hfirst (by simp)
  · rw [heq] at hfirst
    obtain rfl := Option.some.inj hfirst
    rw [Page.scanFrom, heq, List.map_cons, List.cons_append]
    exact .on hq hlay hlt hlink hpost ht

/-- A page without such a slot has nothing to visit. -/
theorem scanFrom_nil {id : PageId} {q : Page} {a : Nat} (h : (q.liveFrom a).head? = none) :
    q.scanFrom id a = [] := by
  rw [Page.scanFrom, List.head?_eq_none_iff.mp h]
  rfl

theorem mem_of_suffix {id : PageId} {post : List PageId} (h : id :: post <:+ s.chain) :
    id ∈ s.chain ∧ post <:+ s.chain :=
  ⟨h.subset List.mem_cons_self, (List.suffix_cons id post).trans h⟩

/-- **The walk over the later pages.** -/
theorem Access.walkPages (h : Access spec s refusing Free On) (hs : s.Ok) {start : PageId}
    (post : List PageId) (hlink : Segment (linkOf s.pages) start post invalidPageId)
    (hpost : post <:+ s.chain) {fuel : Nat} (hfuel : post.length < fuel) (it : HeapFileIterator)
    {t : τ} (ht : Free t) :
    Program.wp spec (HeapFileIterator.walkPages fuel it start)
      (Goes s refusing Free On (scanPages s.pages post)) t := by
  induction post generalizing fuel start it t with
  | nil =>
    obtain ⟨fuel, rfl⟩ := Nat.exists_eq_succ_of_ne_zero (Nat.ne_of_gt hfuel)
    unfold HeapFileIterator.walkPages
    rw [if_pos (show start = invalidPageId from hlink)]
    exact Visits.goes (.ended rfl ht)
  | cons id post ih =>
    obtain ⟨rfl, next, hnext, hlink⟩ := hlink
    obtain ⟨hid, hpost⟩ := mem_of_suffix hpost
    obtain ⟨fuel, rfl⟩ := Nat.exists_eq_succ_of_ne_zero (Nat.ne_of_gt (Nat.zero_lt_of_lt hfuel))
    obtain ⟨q, hq, hql⟩ := hs.layout start hid
    obtain rfl : q.getNextPageId = next := by simpa [linkOf, hq] using hnext
    have hscan : scanPages s.pages (start :: post) =
        q.scanFrom start 0 ++ scanPages s.pages post := by simp [scanPages, hq]
    rw [hscan]
    unfold HeapFileIterator.walkPages
    rw [if_neg (hs.ids start hid).2, Program.wp_bind]
    refine h.fetch hid ht (fun t' ht' => ?_) fun hrefusing => ?_
    · rw [if_pos rfl, Program.wp_bind]
      refine h.read hq ht' fun p hp => ?_
      have hpl : p.Layout := hp.symm.layout hql
      rw [hp.nextRecord hpl, Page.nextRecord_eq, UInt16.toNat_zero]
      cases hfirst : (q.liveFrom 0).head? with
      | some slotId => exact (visits_first hq hql hlink hpost hfirst ht').goes
      | none =>
        simp only []
        rw [Program.wp_bind, scanFrom_nil hfirst, hp.getNextPageId]
        exact h.unpin ht' fun t'' ht'' => ih hlink hpost (by simpa using hfuel) _ ht''
    · rw [if_neg Bool.false_ne_true]
      exact Goes.of_refused rfl ht hrefusing _

/-- **AdvanceToNextRecord**, from slot `start` of a page the iterator holds. -/
theorem Access.advance (h : Access spec s refusing Free On) (hs : s.Ok) (it : HeapFileIterator)
    (hon : it.onPage = true) {q : Page} {post : List PageId}
    (hq : s.pages it.currentPageId = some q) (hlay : q.Layout)
    (hlink : Segment (linkOf s.pages) q.getNextPageId post invalidPageId)
    (hpost : post <:+ s.chain) {fuel : Nat} (hfuel : post.length < fuel) {t : τ}
    (ht : On it.currentPageId t) :
    Program.wp spec (advanceToNextRecord fuel it) (Goes s refusing Free On
      (q.scanFrom it.currentPageId (it.currentSlot + 1).toNat ++ scanPages s.pages post)) t := by
  unfold HeapFileIterator.advanceToNextRecord
  rw [if_pos hon, Program.wp_bind]
  refine h.read hq ht fun p hp => ?_
  have hpl : p.Layout := hp.symm.layout hlay
  rw [hp.nextRecord hpl, Page.nextRecord_eq]
  cases hfirst : (q.liveFrom (it.currentSlot + 1).toNat).head? with
  | some slotId => exact (visits_first hq hlay hlink hpost hfirst ht).goes
  | none =>
    simp only []
    rw [Program.wp_bind, scanFrom_nil hfirst, hp.getNextPageId]
    exact h.unpin ht fun t' ht' => h.walkPages hs post hlink hpost hfuel it ht'

/-- **Next** takes the first record off what is to be visited. -/
theorem Access.next (h : Access spec s refusing Free On) (hs : s.Ok) {it : HeapFileIterator} {t : τ}
    {e : RID × Option (List UInt8)} {todo : List (RID × Option (List UInt8))}
    (hvisits : Visits s Free On it t (e :: todo)) {fuel : Nat} (hfuel : s.chain.length < fuel) :
    Program.wp spec (it.next fuel) (Goes s refusing Free On todo) t := by
  cases hvisits with
  | @on id slotId q post t hq hlay hslot hlink hpost ht =>
    unfold HeapFileIterator.next
    rw [if_pos (show (HeapFileIterator.onRecord id slotId).valid = true from rfl)]
    have hle := hlay.numSlots_le
    have hsucc : (slotId + 1).toNat = slotId.toNat + 1 := toNat_succ16 (by
      rw [Page.getNumSlots] at hslot
      omega)
    have hgoes := h.advance hs (.onRecord id slotId) rfl hq hlay hlink hpost
      (hpost.length_le.trans_lt hfuel) ht
    rwa [show (HeapFileIterator.onRecord id slotId).currentSlot = slotId from rfl, hsucc] at hgoes

/-- **The constructor** of the iterator has everything to visit. -/
theorem Access.begin (h : Access spec s refusing Free On) (hs : s.Ok) {fuel : Nat}
    (hfuel : s.chain.length < fuel) {t : τ} (ht : Free t) :
    Program.wp spec (HeapFileIterator.begin fuel (s.chain.head?.getD invalidPageId))
      (Goes s refusing Free On s.contents) t := by
  unfold HeapFileIterator.begin
  have hlink := hs.linked
  cases hch : s.chain with
  -- a heap file without pages
  | nil =>
    rw [List.head?_nil, Option.getD_none, if_pos rfl, contents, hch]
    exact Visits.goes (.ended rfl ht)
  | cons id post =>
    rw [hch] at hlink
    obtain ⟨-, next, hnext, hlink⟩ := hlink
    have hsuffix : id :: post <:+ s.chain := hch ▸ List.suffix_rfl
    obtain ⟨hid, hpost⟩ := mem_of_suffix hsuffix
    have hlen : post.length < fuel := hpost.length_le.trans_lt hfuel
    obtain ⟨q, hq, hql⟩ := hs.layout id hid
    obtain rfl : q.getNextPageId = next := by simpa [linkOf, hq] using hnext
    have hall : s.contents = q.scanFrom id 0 ++ scanPages s.pages post := by
      simp [contents, scanPages, hch, hq]
    rw [List.head?_cons, Option.getD_some, if_neg (hs.ids id hid).2, Program.wp_bind, hall]
    refine h.fetch hid ht (fun t' ht' => ?_) fun hrefusing => ?_
    · rw [if_pos rfl, Program.wp_bind]
      refine h.read hq ht' fun p hp => ?_
      have hpl : p.Layout := hp.symm.layout hql
      have hslots : p.getNumSlots = q.getNumSlots := congrArg PageHeader.numSlots hp.header
      rw [hp.getRecord hpl, hslots]
      have hadvance : q.scanFrom id 0 = q.scanFrom id 1 →
          Program.wp spec (advanceToNextRecord fuel { currentPageId := id, onPage := true })
            (Goes s refusing Free On (q.scanFrom id 0 ++ scanPages s.pages post)) t' := by
        intro hskip
        rw [hskip]
        exact h.advance hs { currentPageId := id, onPage := true } rfl hq hql hlink hpost hlen ht'
      -- the first page has no slots
      by_cases hzero : q.getNumSlots = 0
      · rw [if_pos hzero]
        refine hadvance ?_
        rw [Page.scanFrom, Page.scanFrom, Page.liveFrom_of_le (by simp [hzero]),
          Page.liveFrom_of_le (by simp [hzero])]
      · rw [if_neg hzero]
        have hpos : 0 < q.getNumSlots.toNat :=
          Nat.pos_of_ne_zero fun he => hzero (UInt16.toNat_inj.mp he)
        have hstep : q.liveFrom 0
            = if (q.getRecord 0).isSome then 0 :: q.liveFrom 1 else q.liveFrom 1 :=
          Page.liveFrom_of_lt hpos
        -- the slot 0 is tried by the constructor itself
        by_cases hlive : (q.getRecord 0).isSome = true
        · rw [if_pos hlive]
          refine (visits_first hq hql hlink hpost ?_ ht').goes
          rw [hstep, if_pos hlive]
          rfl
        · -- the search goes on behind slot 0
          rw [if_neg hlive]
          refine hadvance ?_
          rw [Page.scanFrom, Page.scanFrom, hstep, if_neg hlive]
    · -- the fetch of the first page was refused
      rw [if_neg Bool.false_ne_true]
      exact Goes.of_refused rfl ht hrefusing _

end Iterator

/-! ## 4. Scans in a quiet pool

The first use: nobody else has a page pinned, and every fetch is served. -/

/-- What the iterator will still visit, where nobody else has a page pinned. -/
inductive Reading (n : Nat) (s : HeapState) :
    HeapFileIterator → View → List (RID × Option (List UInt8)) → Prop
  | ended {it : HeapFileIterator} (h : it.valid = false) : Reading n s it (View.quiet n s.pages) []
  | on {id : PageId} {slotId : UInt16} {q : Page} {post : List PageId} (hq : s.pages id = some q)
      (hlay : q.Layout) (hslot : slotId.toNat < q.getNumSlots.toNat)
      (hlink : Segment (linkOf s.pages) q.getNextPageId post invalidPageId)
      (hpost : post <:+ s.chain) :
      Reading n s (.onRecord id slotId) (View.held n s.pages id false)
        ((⟨id, slotId⟩, q.getRecord slotId) ::
          (q.scanFrom id (slotId.toNat + 1) ++ scanPages s.pages post))

/-- In a quiet pool the iterator holds its page and nothing else. -/
theorem reading_iff {it : HeapFileIterator} {v : View} {todo : List (RID × Option (List UInt8))} :
    Reading n s it v todo ↔ Visits s (fun v => v = View.quiet n s.pages)
      (fun id v => v = View.held n s.pages id false) it v todo := by
  constructor
  · intro h
    cases h with
    | ended h => exact .ended h rfl
    | on hq hlay hslot hlink hpost => exact .on hq hlay hslot hlink hpost rfl
  · intro h
    cases h with
    | ended h ht => exact ht ▸ .ended h
    | on hq hlay hslot hlink hpost ht => exact ht ▸ .on hq hlay hslot hlink hpost

/-- Where the fetches are served, nothing is refused. -/
theorem Ok.access (h : s.Ok) (hserve : mode.Serves n 0) :
    Access (poolSpec mode) s False (fun v => v = View.quiet n s.pages)
      (fun id v => v = View.held n s.pages id false) where
  fetch := by
    rintro id v Q hid rfl htrue -
    exact h.fetch hserve hid fun q _ _ => htrue _ rfl
  read := by
    rintro id q v Q hq rfl hQ
    exact wp_read_held hq hQ
  unpin := by
    rintro id v Q rfl hQ
    exact wp_unpin_held (by simp) (hQ _ rfl)

theorem Goes.reading {todo : List (RID × Option (List UInt8))} {r : Option HeapFileIterator}
    {v : View} (h : Goes s False (fun v => v = View.quiet n s.pages)
      (fun id v => v = View.held n s.pages id false) todo r v) :
    ∃ it, r = some it ∧ Reading n s it v todo := by
  obtain ⟨it, rest, hr, hvisits, hrest⟩ := h
  obtain rfl := hrest.resolve_right fun hno => hno.1
  exact ⟨it, hr, reading_iff.mpr hvisits⟩

/-- **Next** takes the first record off what is to be visited. -/
theorem Ok.next (h : s.Ok) (hserve : mode.Serves n 0) {it : HeapFileIterator} {v : View}
    {e : RID × Option (List UInt8)} {todo : List (RID × Option (List UInt8))}
    (hread : Reading n s it v (e :: todo)) {fuel : Nat} (hfuel : s.chain.length < fuel)
    {Q : Option HeapFileIterator → View → Prop}
    (hQ : ∀ it' v', Reading n s it' v' todo → Q (some it') v') :
    (it.next fuel).wp mode Q v := by
  refine Program.wp_mono ((h.access hserve).next h (reading_iff.mp hread) hfuel)
    fun r v' hgoes => ?_
  obtain ⟨it', rfl, hread'⟩ := hgoes.reading
  exact hQ it' v' hread'

/-- **The constructor** of the iterator has everything to visit. -/
theorem Ok.begin (h : s.Ok) (hserve : mode.Serves n 0) {fuel : Nat}
    (hfuel : s.chain.length < fuel) {Q : Option HeapFileIterator → View → Prop}
    (hQ : ∀ it v, Reading n s it v s.contents → Q (some it) v) :
    (begin fuel (s.chain.head?.getD invalidPageId)).wp mode Q (View.quiet n s.pages) := by
  refine Program.wp_mono ((h.access hserve).begin h hfuel rfl) fun r v' hgoes => ?_
  obtain ⟨it, rfl, hread⟩ := hgoes.reading
  exact hQ it v' hread

/-- **The loop of a client** reads everything there is to visit, and ends. -/
theorem Ok.collect (h : s.Ok) (hserve : mode.Serves n 0)
    {todo : List (RID × Option (List UInt8))} {it : HeapFileIterator} {v : View}
    (hread : Reading n s it v todo) {fuel : Nat} (hfuel : todo.length + s.chain.length < fuel)
    {Q : Option (List (RID × Option (List UInt8))) → View → Prop}
    (hQ : Q (some todo) (View.quiet n s.pages)) : (it.collect fuel).wp mode Q v := by
  induction todo generalizing it v fuel Q with
  | nil =>
    obtain ⟨fuel, rfl⟩ := Nat.exists_eq_succ_of_ne_zero (Nat.ne_of_gt (Nat.zero_lt_of_lt hfuel))
    cases hread with
    | ended hvalid =>
      unfold HeapFileIterator.collect
      rw [if_neg (by simp [hvalid])]
      exact hQ
  | cons e todo ih =>
    obtain ⟨fuel, rfl⟩ := Nat.exists_eq_succ_of_ne_zero (Nat.ne_of_gt (Nat.zero_lt_of_lt hfuel))
    have hlen : todo.length + s.chain.length < fuel := by
      simp only [List.length_cons] at hfuel
      omega
    unfold HeapFileIterator.collect
    cases hread with
    | @on id slotId q post hq hlay hslot hlink hpost =>
      rw [if_pos (show (HeapFileIterator.onRecord id slotId).valid = true from rfl), wp,
        Program.wp_bind]
      unfold HeapFileIterator.getRecord
      rw [Program.wp_bind]
      refine wp_read_held hq fun p hp => ?_
      rw [hp.getRecord (hp.symm.layout hlay)]
      simp only [Program.wp_pure]
      rw [Program.wp_bind]
      refine h.next hserve (.on hq hlay hslot hlink hpost) (by omega) fun it' v' hread' => ?_
      simp only []
      rw [Program.wp_bind]
      exact ih hread' hlen hQ

/-- **A scan** visits the contents, and ends. -/
theorem Ok.scan (h : s.Ok) (hserve : mode.Serves n 0)
    (hfirst : s.chain.head? = some s.heap.firstPageId) {fuel : Nat}
    (hfuel : s.contents.length + s.chain.length < fuel)
    {Q : Option (List (RID × Option (List UInt8))) → View → Prop}
    (hQ : Q (some s.contents) (View.quiet n s.pages)) :
    (s.heap.scan fuel).wp mode Q (View.quiet n s.pages) := by
  unfold HeapFile.scan
  have hstart : s.heap.firstPageId = s.chain.head?.getD invalidPageId := by
    rw [hfirst, Option.getD_some]
  rw [hstart, wp, Program.wp_bind]
  exact h.begin hserve (by omega) fun it v hread => h.collect hserve hread hfuel hQ

end HeapState

/-! ## 5. Fuel

A scan that came to its end would have come to the same end with more fuel, so the fuel does not
appear in what is said of scans elsewhere. -/

open PoolM

namespace HeapFileIterator

/-- A walk that ended goes the same way with more fuel. -/
theorem walkPages_succ {fuel : Nat} {it : HeapFileIterator} {id : PageId} {b : BufferPoolManager}
    (h : ((walkPages fuel it id).exec b).1.isSome) :
    (walkPages (fuel + 1) it id).exec b = (walkPages fuel it id).exec b := by
  induction fuel generalizing it id b with
  | zero => exact absurd h (by simp [walkPages])
  | succ fuel ih =>
    unfold walkPages at h ⊢
    by_cases hinv : id = invalidPageId
    · rw [if_pos hinv, if_pos hinv]
    · rw [if_neg hinv] at h
      rw [if_neg hinv, if_neg hinv]
      rw [exec_bind] at h
      rw [exec_bind, exec_bind]
      by_cases hf : ((fetchPage id).exec b).1 = true
      · rw [if_pos hf] at h
        rw [if_pos hf, if_pos hf]
        simp only [exec_bind, exec_readPage] at h ⊢
        cases hn : (((fetchPage id).exec b).2.residentPage id).nextRecord 0 with
        | some slotId => rfl
        | none =>
          rw [hn] at h
          simp only [exec_bind, exec_unpinPage] at h ⊢
          exact ih h
      · rw [if_neg hf, if_neg hf]

/-- More fuel does not change what a loop has found. -/
theorem advanceToNextRecord_succ {fuel : Nat} {it : HeapFileIterator} {b : BufferPoolManager}
    (h : ((advanceToNextRecord fuel it).exec b).1.isSome) :
    (advanceToNextRecord (fuel + 1) it).exec b = (advanceToNextRecord fuel it).exec b := by
  unfold advanceToNextRecord at h ⊢
  split
  · rename_i hon
    rw [if_pos hon] at h
    simp only [exec_bind, exec_readPage] at h ⊢
    split
    · rfl
    · rename_i hnone
      rw [hnone] at h
      simp only [exec_bind, exec_unpinPage] at h ⊢
      exact walkPages_succ h
  · rfl

theorem next_succ {fuel : Nat} {it : HeapFileIterator} {b : BufferPoolManager}
    (h : ((it.next fuel).exec b).1.isSome) :
    (it.next (fuel + 1)).exec b = (it.next fuel).exec b := by
  unfold HeapFileIterator.next at h ⊢
  split
  · rename_i hvalid
    rw [if_pos hvalid] at h
    exact advanceToNextRecord_succ h
  · rfl

theorem begin_succ {fuel : Nat} {id : PageId} {b : BufferPoolManager}
    (h : ((begin fuel id).exec b).1.isSome) :
    (begin (fuel + 1) id).exec b = (begin fuel id).exec b := by
  unfold HeapFileIterator.begin at h ⊢
  split
  · rfl
  · rename_i hinv
    rw [if_neg hinv] at h
    rw [exec_bind] at h
    rw [exec_bind, exec_bind]
    by_cases hf : ((fetchPage id).exec b).1 = true
    · rw [if_pos hf] at h
      rw [if_pos hf, if_pos hf]
      rw [exec_bind] at h
      rw [exec_bind, exec_bind]
      generalize (readPage id).exec ((fetchPage id).exec b).2 = r at h ⊢
      by_cases hslots : r.1.getNumSlots = 0
      · rw [if_pos hslots] at h
        rw [if_pos hslots, if_pos hslots]
        exact advanceToNextRecord_succ h
      · rw [if_neg hslots] at h
        rw [if_neg hslots, if_neg hslots]
        by_cases hrec : (r.1.getRecord 0).isSome = true
        · rw [if_pos hrec, if_pos hrec]
        · rw [if_neg hrec] at h
          rw [if_neg hrec, if_neg hrec]
          exact advanceToNextRecord_succ h
    · rw [if_neg hf, if_neg hf]

theorem collect_succ {fuel : Nat} {it : HeapFileIterator} {b : BufferPoolManager}
    (h : ((it.collect fuel).exec b).1.isSome) :
    (it.collect (fuel + 1)).exec b = (it.collect fuel).exec b := by
  induction fuel generalizing it b with
  | zero => exact absurd h (by simp [collect])
  | succ fuel ih =>
    unfold collect at h ⊢
    split
    · rename_i hvalid
      rw [if_pos hvalid] at h
      simp only [exec_bind] at h ⊢
      have hsome : ((it.next fuel).exec (it.getRecord.exec b).2).1.isSome := by
        by_contra hno
        rw [Option.not_isSome_iff_eq_none.mp hno] at h
        exact absurd h (by simp)
      rw [next_succ hsome]
      split
      · rfl
      · rename_i it' hit
        rw [hit] at h
        simp only [exec_bind] at h ⊢
        have hsome' : ((it'.collect fuel).exec
          ((it.next fuel).exec (it.getRecord.exec b).2).2).1.isSome := by
          by_contra hno
          rw [Option.not_isSome_iff_eq_none.mp hno] at h
          exact absurd h (by simp)
        rw [ih hsome']
    · rfl

end HeapFileIterator

/-- **A scan that ended** gives the same records with more fuel. -/
theorem HeapFile.scan_succ {heap : HeapFile} {fuel : Nat} {b : BufferPoolManager}
    (h : ((heap.scan fuel).exec b).1.isSome) :
    (heap.scan (fuel + 1)).exec b = (heap.scan fuel).exec b := by
  unfold HeapFile.scan at h ⊢
  simp only [exec_bind] at h ⊢
  have hsome : ((HeapFileIterator.begin fuel heap.firstPageId).exec b).1.isSome := by
    by_contra hno
    rw [Option.not_isSome_iff_eq_none.mp hno] at h
    exact absurd h (by simp)
  rw [HeapFileIterator.begin_succ hsome]
  split
  · rfl
  · rename_i it hit
    rw [hit] at h
    exact HeapFileIterator.collect_succ h

/-- Two scans that ended visited the same records. -/
theorem HeapFile.scan_unique {heap : HeapFile} {fuel fuel' : Nat} {b : BufferPoolManager}
    {l l' : List (RID × Option (List UInt8))} (h : ((heap.scan fuel).exec b).1 = some l)
    (h' : ((heap.scan fuel').exec b).1 = some l') : l = l' := by
  have hmore : ∀ (k : Nat) {fuel : Nat} {l}, ((heap.scan fuel).exec b).1 = some l →
      ((heap.scan (fuel + k)).exec b).1 = some l := by
    intro k
    induction k with
    | zero => exact fun h => h
    | succ k ih =>
      intro fuel l h
      rw [← Nat.add_assoc, HeapFile.scan_succ (Option.isSome_of_eq_some (ih h))]
      exact ih h
  have h1 := hmore fuel' h
  have h2 := hmore fuel h'
  rw [Nat.add_comm] at h2
  exact Option.some.inj (h1.symm.trans h2)

end CourtDB
