/-
# What a scan promises while the table changes

A client that scans a heap file need not finish before others insert and delete.  What it may rely
on is less than a snapshot.  The abstract scan (`OpenScan`) knows which records it has visited and
which have been in the table since it began.  It goes on to some record of the table that it has not
visited, and it may only end when it has visited every record that stayed.  Whether it visits a
record that came in the meantime, or one that went, is not said.

`ScannedContents` is an abstract database with any number of such scans open.
-/
import CourtDB.Shared.Contents

namespace CourtDB

/-! ## 1. One scan -/

/-- A scan of a table: the record ids that have been in the table since it began, those it has
visited, and the one it is on. -/
structure OpenScan (ι : Type) where
  heap : ι
  stayed : List RID
  visited : List RID := []
  here : Option RID := none

namespace OpenScan

variable {ι κ : Type}

/-- A scan that has visited nothing. -/
def opened (c : Contents ι κ) (i : ι) : OpenScan ι :=
  { heap := i, stayed := (c.table i).map Prod.fst }

/-- The records that are still there. -/
def keep (c : Contents ι κ) (s : OpenScan ι) : OpenScan ι :=
  { s with stayed := s.stayed.filter fun rid => ((c.table s.heap).lookup rid).isSome }

/-- A scan goes on to a new record, or it ends after all that stayed. -/
inductive Moves (c : Contents ι κ) (s : OpenScan ι) : OpenScan ι → Prop
  | visit {rid : RID} (hlive : ((c.table s.heap).lookup rid).isSome) (hnew : rid ∉ s.visited) :
      Moves c s { s with visited := s.visited ++ [rid], here := some rid }
  | finish (hall : ∀ rid ∈ s.stayed, rid ∈ s.visited) : Moves c s { s with here := none }

/-- What a client may rely on: nothing is visited twice, and in the end everything that stayed has
been visited. -/
def Fair (s : OpenScan ι) : Prop :=
  s.visited.Nodup ∧ (s.here = none → ∀ rid ∈ s.stayed, rid ∈ s.visited)

theorem Moves.fair {c : Contents ι κ} {s t : OpenScan ι} (h : Moves c s t) (hs : s.visited.Nodup) :
    t.Fair := by
  cases h with
  | visit hlive hnew =>
    refine ⟨?_, fun hnone => absurd hnone (by simp)⟩
    exact List.nodup_append.mpr ⟨hs, List.nodup_singleton _, fun x hx y hy hxy =>
      hnew (List.mem_singleton.mp hy ▸ hxy ▸ hx)⟩
  | finish hall => exact ⟨hs, fun _ => hall⟩

theorem Fair.keep {s : OpenScan ι} (h : s.Fair) (c : Contents ι κ) : (s.keep c).Fair :=
  ⟨h.1, fun hnone rid hrid => h.2 hnone rid (List.mem_of_mem_filter hrid)⟩

end OpenScan

/-! ## 2. Scans of a database -/

/-- A call on the database, or on a scan, which is named by its number: `begin` opens one, `next`
goes on to the next record, and `current` reads the record that the scan is on. -/
inductive ScanningOp (ι κ : Type)
  | call (op : SharedOp ι κ)
  | begin (i : ι)
  | next (x : Nat)
  | current (x : Nat)

/-- The abstract database and its open scans. -/
structure ScannedContents (ι κ : Type) where
  contents : Contents ι κ := {}
  scans : List (OpenScan ι) := []

namespace ScannedContents

variable {ι κ : Type} [DecidableEq ι] [DecidableEq κ]

/-- **What a call may answer, and what it does.**  A scan that moves answers the record id that it
is on then, if it is not at the end.  The record under it is answered as it is now: there is none if
the record was deleted after the scan went there. -/
inductive Step : ScannedContents ι κ → ScanningOp ι κ → Answer → ScannedContents ι κ → Prop
  | call {c d : Contents ι κ} {scans : List (OpenScan ι)} {op : SharedOp ι κ} {a : Answer}
      (h : c.Step op a d) : Step ⟨c, scans⟩ (.call op) a ⟨d, scans.map (OpenScan.keep d)⟩
  | begin {c : Contents ι κ} {scans : List (OpenScan ι)} {i : ι} {s : OpenScan ι}
      (h : (OpenScan.opened c i).Moves c s) :
      Step ⟨c, scans⟩ (.begin i) (.ids s.here.toList) ⟨c, scans ++ [s]⟩
  | next {c : Contents ι κ} {scans : List (OpenScan ι)} {x : Nat} {s t : OpenScan ι}
      (hx : scans[x]? = some s) (h : s.Moves c t) (hon : s.here.isSome) :
      Step ⟨c, scans⟩ (.next x) (.ids t.here.toList) ⟨c, scans.set x t⟩
  | ended {c : Contents ι κ} {scans : List (OpenScan ι)} {x : Nat} {s : OpenScan ι}
      (hx : scans[x]? = some s) (hend : s.here = none) :
      Step ⟨c, scans⟩ (.next x) (.ids []) ⟨c, scans⟩
  | current {c : Contents ι κ} {scans : List (OpenScan ι)} {x : Nat} {s : OpenScan ι} {rid : RID}
      (hx : scans[x]? = some s) (hon : s.here = some rid) :
      Step ⟨c, scans⟩ (.current x) (.record ((c.table s.heap).lookup rid)) ⟨c, scans⟩

/-- Calls with answers of the abstract database and its scans. -/
inductive Trace : ScannedContents ι κ → List (ScanningOp ι κ) → List Answer →
    ScannedContents ι κ → Prop
  | nil {w : ScannedContents ι κ} : Trace w [] [] w
  | cons {ops : List (ScanningOp ι κ)} {answers : List Answer} {w w' w'' : ScannedContents ι κ}
      {op : ScanningOp ι κ} {a : Answer} (hstep : w.Step op a w') (h : Trace w' ops answers w'') :
      Trace w (op :: ops) (a :: answers) w''

/-- A step keeps all scans fair. -/
theorem Step.fair {w w' : ScannedContents ι κ} {op : ScanningOp ι κ} {a : Answer}
    (h : w.Step op a w')
    (hw : ∀ s ∈ w.scans, s.Fair) : ∀ s ∈ w'.scans, s.Fair := by
  cases h with
  | call h =>
    intro s hs
    obtain ⟨t, ht, rfl⟩ := List.mem_map.mp hs
    exact (hw t ht).keep _
  | begin h =>
    intro s hs
    rcases List.mem_append.mp hs with hs | hs
    · exact hw s hs
    · rw [List.mem_singleton.mp hs]
      exact h.fair List.nodup_nil
  | next hx h hon =>
    intro s hs
    rcases List.mem_or_eq_of_mem_set hs with hs | rfl
    · exact hw s hs
    · exact h.fair (hw _ (List.mem_of_getElem? hx)).1
  | ended hx hend => exact hw
  | current hx hon => exact hw

/-- **Every scan of a run is fair.** -/
theorem Trace.fair {w w' : ScannedContents ι κ} {ops : List (ScanningOp ι κ)}
    {answers : List Answer}
    (h : Trace w ops answers w') (hw : ∀ s ∈ w.scans, s.Fair) : ∀ s ∈ w'.scans, s.Fair := by
  induction h with
  | nil => exact hw
  | cons hstep _ ih => exact ih (hstep.fair hw)

end ScannedContents

end CourtDB
