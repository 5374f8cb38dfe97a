import Communicator.Counters
import Communicator.Lib.Updates
import Communicator.Proofs.LastNumber

/-!
# A crash while the counters are saved

The save truncates the only copy before it writes it. If it ends early, the next start loads what
the bytes written so far hold, and the controllers whose entries are not among them are taken for
new ones.
-/

namespace Communicator

open Lts

def emptyTable : Counterer := fun _ => none

namespace Archive

/-- What is relied on for the table to write: the whole file is read back, and of a file cut short
the entries it holds are, whether or not the archive then fails. -/
structure Reads (A : Archive) (t : Counterer) : Prop where
  whole : A.read (A.write t) emptyTable = (true, t)
  cut : ∀ n < (A.write t).length,
    (A.read ((A.write t).take n) emptyTable).2 = Updates.restrict (A.holds t n) t

/-- The save does not open the file, or writes all of it, or as much as has the entries of all
controllers that were known before. -/
def Survives (A : Archive) (before after : Counterer) : Option ℕ → Prop
  | none => True
  | some n => (A.write after).length ≤ n
      ∨ ∀ controllerId, before controllerId ≠ none → A.holds after n controllerId = true

end Archive

section Load

variable {A : Archive} {file : Option (List UInt8)} {t before : Counterer} {n : ℕ}

theorem load_whole (h : A.Reads t) (hn : (A.write t).length ≤ n) :
    loadCounters A (saveCountersUntil A file t (some n)) emptyTable = t := by
  simp only [saveCountersUntil, loadCounters]
  rw [List.take_of_length_le hn, h.whole]

theorem load_cut (h : A.Reads t) (hn : n < (A.write t).length) :
    loadCounters A (saveCountersUntil A file t (some n)) emptyTable
      = Updates.restrict (A.holds t n) t := by
  simp only [saveCountersUntil, loadCounters]
  rw [h.cut n hn]

/-- After a crash in `set_last_counter` the next start loads the table before or after the update
exactly if the save left or wrote the entries of all controllers known before. -/
theorem loads_iff {controllerId counter : UInt32} (point : Option ℕ)
    (hfile : loadCounters A file emptyTable = before)
    (h : A.Reads (Function.update before controllerId (some counter))) :
    (loadCounters A (saveCountersUntil A file
          (Function.update before controllerId (some counter)) point) emptyTable = before
      ∨ loadCounters A (saveCountersUntil A file
          (Function.update before controllerId (some counter)) point) emptyTable
        = Function.update before controllerId (some counter))
      ↔ A.Survives before (Function.update before controllerId (some counter)) point := by
  cases point with
  | none => exact iff_of_true (.inl hfile) trivial
  | some n =>
    by_cases hn : (A.write (Function.update before controllerId (some counter))).length ≤ n
    · exact iff_of_true (.inr (load_whole h hn)) (.inl hn)
    · rw [load_cut h (Nat.lt_of_not_le hn), Archive.Survives, or_iff_right hn]
      exact Updates.restrict_update_iff _ _ _ _

/-- A controller whose entry is not among the bytes written is asked for its whole archive. -/
theorem taken_for_new {κ : Type} [DecidableEq κ] {E : Env} {k : κ} {s : Server κ} {f : Incoming}
    {backend : BaseImpl InfoMessage} (h : A.Reads t) (hn : n < (A.write t).length)
    (hlost : A.holds t n f.controllerId = false) (hf : f.Identifies)
    (hs : (Server.start ⟨loadCounters A (saveCountersUntil A file t (some n)) emptyTable,
      backend⟩).step E (.frame k f) = some s) : (s.sessions k).sent = [.dataRequest 0] := by
  rw [load_cut h hn] at hs
  refine ident_first hf ?_ hs
  have hnone : Updates.restrict (A.holds t n) t f.controllerId = none := if_neg (by simp [hlost])
  simp [Server.start, Shared.position, hnone]

end Load

def seven (counter : UInt32) : Counterer := Function.update emptyTable 7 (some counter)

def sevenFile (counter : UInt32) : List UInt8 :=
  text "22 serialization::archive 17 0 0 1 0 0 0 7 " ++ unsigned32Text counter ++ text "\n"

/-- The archive on the tables that give controller 7 a number of one digit. It can do without the
last byte, which ends the line. -/
def sevenArchive : Archive where
  write t := sevenFile ((t 7).getD 0)
  read bytes t :=
    if bytes = sevenFile 5 ∨ bytes = (sevenFile 5).dropLast then (true, seven 5)
    else if bytes = sevenFile 6 ∨ bytes = (sevenFile 6).dropLast then (true, seven 6)
    else (false, t)
  holds t n _ := (sevenFile ((t 7).getD 0)).length ≤ n + 1

theorem read_five : sevenArchive.read (sevenFile 5) emptyTable = (true, seven 5) := by
  simp [sevenArchive]

theorem load_five : loadCounters sevenArchive (some (sevenFile 5)) emptyTable = seven 5 :=
  congrArg Prod.snd read_five

theorem reads_seven : sevenArchive.Reads (Function.update (seven 5) 7 (some 6)) := by
  have hwrite : sevenArchive.write (Function.update (seven 5) 7 (some 6)) = sevenFile 6 := rfl
  have hholds : ∀ n, sevenArchive.holds (Function.update (seven 5) 7 (some 6)) n
      = fun _ => decide ((sevenFile 6).length ≤ n + 1) := fun _ => rfl
  have hseven : Function.update (seven 5) 7 (some 6) = seven 6 := Function.update_idem ..
  have hread : ∀ n ≤ (sevenFile 6).length, (sevenFile 6).take n ≠ sevenFile 5
      ∧ (sevenFile 6).take n ≠ (sevenFile 5).dropLast
      ∧ ((sevenFile 6).take n = sevenFile 6 ∨ (sevenFile 6).take n = (sevenFile 6).dropLast
        ↔ (sevenFile 6).length ≤ n + 1) := by
    decide +kernel
  refine ⟨?_, fun n hn => ?_⟩
  · obtain ⟨h5, h5', h6⟩ := hread _ (Nat.le_refl _)
    rw [List.take_length] at h5 h5'
    rw [hwrite, hseven]
    simp [sevenArchive, h5, h5']
  · rw [hwrite] at hn ⊢
    obtain ⟨h5, h5', h6⟩ := hread n hn.le
    rw [hholds, hseven]
    simp only [sevenArchive, h5, h5', or_self, if_false, h6]
    by_cases hall : (sevenFile 6).length ≤ n + 1
    · simp only [hall, if_true, decide_true]
      rfl
    · simp only [hall, if_false, decide_false]
      rfl

theorem loads_after_write : loadCounters sevenArchive (saveCountersUntil sevenArchive
      (some (sevenFile 5)) (Function.update (seven 5) 7 (some 6)) (some 100)) emptyTable = seven 5
    ∨ loadCounters sevenArchive (saveCountersUntil sevenArchive (some (sevenFile 5))
      (Function.update (seven 5) 7 (some 6)) (some 100)) emptyTable
        = Function.update (seven 5) 7 (some 6) :=
  (loads_iff (some 100) load_five reads_seven).2 (.inl (by decide +kernel))

/-- A crash right behind the opening of the file: the next start knows no controller. -/
theorem counters_lost : loadCounters sevenArchive (some (sevenFile 5)) emptyTable = seven 5
    ∧ loadCounters sevenArchive (saveCountersUntil sevenArchive (some (sevenFile 5))
      (Function.update (seven 5) 7 (some 6)) (some 0)) emptyTable = emptyTable
    ∧ emptyTable ≠ seven 5 ∧ emptyTable ≠ Function.update (seven 5) 7 (some 6) := by
  refine ⟨load_five, ?_, fun h => ?_, fun h => ?_⟩
  · exact load_cut reads_seven (by decide +kernel)
  · cases congrFun h 7
  · cases congrFun h 7

end Communicator
