/-
# Fuel of the tree

The loops of `FindLeafPage` and `InsertIntoParent` run on fuel: a run that needs more levels than
there is fuel ends without a result.  With more fuel such a run goes on where it would have ended,
and a run that ended with a result is the same as before (`Prolongs`).

So a theorem about a run with just enough fuel is one about every run with more: `insert_prolongs`
is used where the bound on the levels, five, is smaller than the fuel the caller passes.
-/
import CourtDB.Lib.Fuel
import CourtDB.Index.BTree

namespace CourtDB.BPlusTree

open Program

variable {f f' : Nat}

theorem descend_prolongs (t : BPlusTree) (key : KeyType) : ∀ {f f' : Nat}, f ≤ f' → ∀ id : PageId,
    (t.descend key f' id).Prolongs (t.descend key f id)
  | 0, _, _, _ => .out _
  | f + 1, 0, h, _ => absurd h (Nat.not_succ_le_zero f)
  | f + 1, f' + 1, h, id => by
    unfold descend
    refine .bind _ fun p => ?_
    split
    · exact .refl _
    refine .bind _ fun _ => .bind _ fun fetched => ?_
    split
    · exact descend_prolongs t key (Nat.le_of_succ_le_succ h) _
    · exact .refl _

theorem findLeafPage_prolongs (h : f ≤ f') (t : BPlusTree) (key : KeyType) :
    (t.findLeafPage f' key).Prolongs (t.findLeafPage f key) := by
  refine .bind _ fun fetched => ?_
  split
  · exact descend_prolongs t key h _
  · exact .refl _

theorem insertIntoParent_prolongs : ∀ {f f' : Nat}, f ≤ f' → ∀ (t : BPlusTree) (leftId : PageId)
    (splitKey : KeyType) (rightId : PageId),
    (insertIntoParent f' t leftId splitKey rightId).Prolongs
      (insertIntoParent f t leftId splitKey rightId)
  | 0, _, _, _, _, _, _ => .out _
  | f + 1, 0, h, _, _, _, _ => absurd h (Nat.not_succ_le_zero f)
  | f + 1, f' + 1, h, t, leftId, splitKey, rightId => by
    unfold insertIntoParent
    refine .bind _ fun left => ?_
    dsimp only
    split
    · exact .refl _
    refine .bind _ fun fetched => ?_
    split
    · refine .bind _ fun parent => ?_
      split
      · refine .bind _ fun newId => ?_
        cases newId with
        | none => exact .refl _
        | some newId =>
          refine .bind _ fun fresh => .bind _ fun _ => .bind _ fun _ => .bind _ fun _ => ?_
          refine .bind_option (insertIntoParent_prolongs (Nat.le_of_succ_le_succ h) t _ _ _) rfl
            fun r => ?_
          exact .refl _
      · exact .refl _
    · exact .refl _

theorem insertSplitting_prolongs (h : f ≤ f') (t : BPlusTree) (leafId : PageId) (leaf : LeafNode)
    (key : KeyType) (rid : RID) :
    (t.insertSplitting f' leafId leaf key rid).Prolongs
    (t.insertSplitting f leafId leaf key rid) := by
  refine .bind _ fun newId => ?_
  cases newId with
  | none => exact .refl _
  | some newId =>
    refine .bind _ fun fresh => .bind _ fun _ => .bind _ fun _ => ?_
    exact .bind_option (insertIntoParent_prolongs h t _ _ _) rfl fun r => .refl _

/-- **Insert** with more fuel. -/
theorem insert_prolongs (h : f ≤ f') (t : BPlusTree) (key : KeyType) (rid : RID) :
    (t.insert f' key rid).Prolongs (t.insert f key rid) := by
  unfold BPlusTree.insert
  split
  · exact .refl _
  refine .bind_option (findLeafPage_prolongs h t key) rfl fun r => ?_
  rcases r with - | - | leafId
  · exact .refl _
  · exact .refl _
  · refine .bind _ fun leaf => ?_
    rcases leaf.insert key rid t.comparator with ⟨- | -, leaf'⟩
    · exact insertSplitting_prolongs h t leafId leaf key rid
    · exact .refl _

end CourtDB.BPlusTree
