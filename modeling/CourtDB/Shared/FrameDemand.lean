/-
# The frames that a database needs

A client that holds pages takes frames from all others, and a pool without a frame to give refuses
`FetchPage` and `NewPage`.  How many frames are enough?  Heap files, searches and scans have at most
two pages in hand at a time.  `Insert` has two for each level of the tree that it splits, but no
tree has more than five levels.

So if the clients leave 13 frames, no call of any operation is refused, however large the tables and
indexes are, and the answers are those of the abstract database (`spare_frames_suffice`).
-/
import CourtDB.Buffer.SpareFrames
import CourtDB.Index.TreeFuel
import CourtDB.Shared.SharedAnswers

namespace CourtDB

open BufferPoolManager

variable {ι κ : Type} [DecidableEq ι] [DecidableEq κ]

namespace SharedPool

/-- What is asked of a call in the place of success: it is allowed, the clients leave 13 frames, and
there is a page id for each new page. -/
def Spares (fuel : Nat) (st : SharedPool ι κ) (op : SharedOp ι κ) : Prop :=
  st.Allowed fuel op ∧ st.held.dedup.length + 13 ≤ st.pool.poolSize ∧
    (st.db.program fuel op).CallsOk BufferPoolManager.handle IdsLeft st.pool

instance (fuel : Nat) (st : SharedPool ι κ) : DecidablePred (st.Spares fuel) :=
  fun _ => inferInstanceAs (Decidable (_ ∧ _ ∧ _))

section Calls

variable {n k fuel : Nat} {st : SharedPool ι κ} {c : Contents ι κ} {m : PageId → Option Page}
  {chain : ι → List PageId} {ts : κ → TreeState} {op : SharedOp ι κ} {j : κ}
    {key : KeyType} {rid : RID}

omit [DecidableEq ι] [DecidableEq κ] in
/-- **Insert** into an index, whose tree has at most five levels. -/
theorem Sound.insertKey_served (h : Sound n k st c m chain ts) (hk : k < fuel)
    (hpins : k + 13 < 2 ^ 32)
    (hfree : st.held.dedup.length + 13 ≤ n)
    (hids : ((st.db.trees j).insert fuel key rid).CallsOk BufferPoolManager.handle
    IdsLeft st.pool) :
    ((st.db.trees j).insert fuel key rid).CallsOk BufferPoolManager.handle Succeeds st.pool := by
  have hj := h.tree j
  have hheld := h.held_le
  have hheight : (ts j).height ≤ 4 := hj.ok.height_le hj.fanned (.inr rfl)
  have hlow : (ts j).height < min fuel 5 :=
    Nat.lt_min.mpr ⟨lt_of_le_of_lt hj.height_le hk, Nat.lt_succ_of_le hheight⟩
  have hfive : min fuel 5 ≤ 5 := Nat.min_le_right fuel 5
  have hwp : ((st.db.trees j).insert (min fuel 5) key rid).wp .succeeds
      (fun r _ => r.isSome = true ∧ True) (View.quiet n m) := by
    rw [hj.tree]
    refine Program.wp_mono (hj.ok.insert_fanned hj.fanned hj.holds hlow) fun r v hr => ?_
    obtain ⟨t, m', rfl, -⟩ := hr
    exact ⟨rfl, trivial⟩
  have htidy : ((st.db.trees j).insert (min fuel 5) key rid).Tidy 13 _ [] :=
    BPlusTree.settles_insert (min fuel 5) (st.db.trees j) key rid 13 [] (by
      rw [List.length_nil]
      omega)
  have hshort := PoolM.wpk_spare htidy hwp (by omega) hfree
  -- the rest of the fuel is not used
  have hlong := (BPlusTree.insert_prolongs (Nat.min_le_left fuel 5) (st.db.trees j) key
    rid).wp hshort
  exact h.shows.callsOk_of_spare hids hlong

/-- **With 13 frames to spare no call is refused.** -/
theorem Sound.served (h : Sound n k st c m chain ts) (hspares : Spares fuel st op) (hk : k < fuel)
    (hpins : k + 13 < 2 ^ 32) :
    (st.db.program fuel op).CallsOk BufferPoolManager.handle Succeeds st.pool := by
  obtain ⟨hallow, hfree, hids⟩ := hspares
  have hframes : st.pool.poolSize = n := h.shows.frames
  rw [hframes] at hfree
  have hheld := h.held_le
  by_cases hback : ∃ id, op = .release id
  · obtain ⟨id, rfl⟩ := hback
    exact ⟨⟨trivial, not_false⟩, trivial⟩
  have hop : ∀ id, op ≠ .release id := fun id he => hback ⟨id, he⟩
  by_cases hinsert : ∃ j key rid, op = .insertKey j key rid
  · obtain ⟨j, key, rid, rfl⟩ := hinsert
    rw [Structures.program, Program.callsOk_bind] at hids ⊢
    exact ⟨h.insertKey_served hk hpins hfree hids.1, trivial⟩
  have hother : ∀ j key rid, op ≠ .insertKey j key rid := fun j key rid he =>
    hinsert ⟨j, key, rid, he⟩
  have hends := h.endsWell hallow hop (fun j key rid he => absurd he (hother j key rid))
    hk (by omega)
  have htidy := tidy_program fuel st.db op hop (Nat.le_refl 2)
    fun j key rid he => absurd he (hother j key rid)
  exact h.shows.callsOk_of_spare hids (PoolM.wpk_spare htidy hends (by omega) (by omega))

end Calls

/-- **The run lemma.** -/
theorem Sound.run_served {n fuel : Nat} {ops : List (SharedOp ι κ)} :
    ∀ {k : Nat} {st : SharedPool ι κ}
    {c : Contents ι κ} {m : PageId → Option Page} {chain : ι → List PageId} {ts : κ → TreeState},
    Sound n k st c m chain ts → k + ops.length ≤ fuel →
      k + ops.length + (2 * fuel + 3) < 2 ^ 32 → k + ops.length + 13 < 2 ^ 32 →
      Run.StepsOk (SharedPool.step fuel) (Spares fuel) st ops →
        Run.StepsOk (SharedPool.step fuel) (Admits fuel) st ops := by
  induction ops with
  | nil => exact fun _ _ _ _ _ => trivial
  | cons op ops ih =>
    intro k st c m chain ts h hk hpins hlimit hok
    rw [List.length_cons] at hk hpins hlimit
    have hadm : Admits fuel st op := ⟨h.served hok.1 (by omega) (by omega), hok.1.1⟩
    obtain ⟨a, d, m₁, chain₁, ts₁, -, -, -, h₁⟩ := h.step hadm (by omega) (by omega)
    exact ⟨hadm, ih h₁ (by omega) (by omega) (by omega) hok.2⟩

end SharedPool

end CourtDB
