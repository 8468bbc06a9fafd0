import Mathlib.Data.Set.Card
import N7OS.Lib.PrintfRuns
import N7OS.Memory.PageAllocator

/-! # The report of `print_mem`

Counting the bits that are set in the bitmap counts the pages of the set that the bitmap
stands for, so after any calls the report is about the abstract allocator.
-/
namespace N7OS
open Bitmap Execution

/-- The loop of `print_mem`. -/
def countUsed (bitmap : PageBitmap) : U32 :=
  (List.range 4096).foldl (fun used p => if test bitmap p then used + 1#32 else used) 0#32

def printMem (stack : ℕ → U8) (console : Console) (bitmap : PageBitmap) : Option Console :=
  User.printf stack console [.word 4096#32, .word (countUsed bitmap), .word (4096#32 - countUsed bitmap)]
    (User.ofString "Memoire physique : %d pages totales, %d utilisees, %d libres\n" ++ [0#8])

/-- The report for a set of `n` pages. -/
def memReport (n : ℕ) : List U8 :=
  User.ofString "Memoire physique : 4096 pages totales, " ++ User.decimalText n ++ User.ofString " utilisees, " ++
    User.decimalText (4096 - n) ++ User.ofString " libres\n"

section
variable {bitmap bitmap' : PageBitmap}

theorem members_subset_pagePool (bitmap : PageBitmap) : members bitmap ⊆ pagePool := by
  intro p hp
  by_contra hout
  have hlarge : 128 ≤ p / 32 := by
    change ¬p < 4096 at hout
    omega
  have hzero : test bitmap p = false := by
    rw [test_eq_getLsbD, word, Vector.getElem?_eq_none hlarge]
    simp
  exact absurd hp (by simp [hzero])

theorem foldl_used (bitmap : PageBitmap) (n : ℕ) :
    (List.range n).foldl (fun used p => if test bitmap p then used + 1#32 else used) 0#32 =
      BitVec.ofNat 32 ((Finset.range n).filter fun p => test bitmap p).card := by
  induction n with
  | zero => rfl
  | succ n ih =>
    rw [List.range_succ, List.foldl_append, List.foldl_cons, List.foldl_nil, ih, Finset.range_add_one, Finset.filter_insert]
    by_cases htest : test bitmap n
    · rw [if_pos htest, if_pos htest, Finset.card_insert_of_notMem (by simp), BitVec.ofNat_add]
    · rw [if_neg htest, if_neg htest]

theorem countUsed_eq (bitmap : PageBitmap) : countUsed bitmap = BitVec.ofNat 32 (members bitmap).ncard := by
  have hset : members bitmap = ↑((Finset.range 4096).filter fun p => test bitmap p) := by
    ext p
    have hpool : test bitmap p = true → p < 4096 := fun hp => members_subset_pagePool bitmap hp
    simpa using hpool
  rw [countUsed, foldl_used, hset, Set.ncard_coe_finset]

theorem ncard_members_le (bitmap : PageBitmap) : (members bitmap).ncard ≤ 4096 := by
  have hpool : pagePool = ↑(Finset.range 4096) := by
    ext p
    simp [pagePool]
  calc (members bitmap).ncard ≤ pagePool.ncard :=
        Set.ncard_le_ncard (members_subset_pagePool bitmap) (hpool ▸ Finset.finite_toSet _)
    _ = 4096 := by rw [hpool, Set.ncard_coe_finset, Finset.card_range]

/-- What `_doprnt` makes of the counts. -/
theorem doprnt_printMem (bitmap : PageBitmap) :
    Doprnt.doprnt 0#32 [.word 4096#32, .word (countUsed bitmap), .word (4096#32 - countUsed bitmap)]
        (User.ofString "Memoire physique : %d pages totales, %d utilisees, %d libres\n" ++ [0#8]) =
      some (memReport (members bitmap).ncard) := by
  have hle := ncard_members_le bitmap
  rw [countUsed_eq]
  generalize (members bitmap).ncard = n at hle ⊢
  have hused : (BitVec.ofNat 32 n).toInt = n := toInt_ofNat_of_lt (by omega)
  have hfree : (4096#32 - BitVec.ofNat 32 n).toInt = 4096 - n := by
    have hnat : (4096#32 - BitVec.ofNat 32 n).toNat = 4096 - n := by
      rw [BitVec.toNat_sub, BitVec.toNat_ofNat, BitVec.toNat_ofNat]
      omega
    rw [BitVec.toInt_eq_toNat_of_lt (by omega), hnat]
    omega
  let pieces : List User.Piece := [.text (User.ofString "Memoire physique : ") (User.plain_ofList rfl), .decimal 4096#32,
    .text (User.ofString " pages totales, ") (User.plain_ofList rfl), .decimal (BitVec.ofNat 32 n),
    .text (User.ofString " utilisees, ") (User.plain_ofList rfl), .decimal (4096#32 - BitVec.ofNat 32 n),
    .text (User.ofString " libres\n") (User.plain_ofList rfl)]
  have hformat : User.ofString "Memoire physique : %d pages totales, %d utilisees, %d libres\n" ++ [0#8] =
      pieces.flatMap User.Piece.fmt ++ [0#8] := by
    simp only [pieces, List.flatMap_cons, List.flatMap_nil, User.Piece.fmt]
    repeat rw [User.ofString_ofList]
    rfl
  have htotal : User.ofString "Memoire physique : " ++ (User.decimalText (4096#32).toInt ++ User.ofString " pages totales, ") =
      User.ofString "Memoire physique : 4096 pages totales, " := by
    repeat rw [User.ofString_ofList]
    decide +kernel
  rw [hformat]
  refine (User.doprnt_pieces pieces []).trans ?_
  rw [memReport, ← htotal]
  simp [pieces, User.Piece.shown, hused, hfree]

theorem printMem_members (stack : ℕ → U8) (console : Console) (bitmap : PageBitmap) :
    printMem stack console bitmap = some (consolePutbytes console (memReport (members bitmap).ncard)) :=
  User.printf_eq (doprnt_printMem bitmap) stack console

end

/-- After any calls from an empty bitmap, the report counts the pages of the abstract allocator. -/
theorem printMem_runs {tr : List PageEvent} {bitmap bitmap' : PageBitmap} (h : Runs PageStep (initMem bitmap) tr bitmap')
    (stack : ℕ → U8) (console : Console) :
    ∃ tr' S, List.Forall₂ ActsAs tr tr' ∧ Runs (FreeSet.Step pagePool) ∅ tr' S ∧ S.ncard ≤ 4096 ∧
      printMem stack console bitmap' = some (consolePutbytes console (memReport S.ncard)) := by
  have hempty : members (initMem bitmap) = ∅ := members_empty
  obtain ⟨tr', hacts, hruns⟩ := PageStep.runs_simulate h
  rw [hempty] at hruns
  exact ⟨tr', members bitmap', hacts, hruns, ncard_members_le bitmap', printMem_members stack console bitmap'⟩

/-- After the first page has been taken. -/
theorem printMem_runs_one :
    let console := Console.boot (fun _ => 0) ⟨0, fun _ => 0⟩
    printMem (fun _ => 0#8) console (findfreePage (initMem (empty 128))).2 =
      some (consolePutbytes console (memReport 1)) := by
  intro console
  have hrun : Runs PageStep (initMem (empty 128)) [⟨.findfreePage, some (findfreePage (initMem (empty 128))).1⟩]
      (findfreePage (initMem (empty 128))).2 := .cons rfl (.nil _)
  obtain ⟨tr', S, hacts, hruns, -, hprint⟩ := printMem_runs hrun (fun _ => 0#8) console
  rw [hprint]
  generalize (findfreePage (initMem (empty 128))).1 = page at hacts
  obtain _ | ⟨hact, hnil⟩ := hacts
  cases hnil
  obtain _ | ⟨hstep, hend⟩ := hruns
  cases hend
  cases hstep with
  | insert => cases hact
  | erase => cases hact
  | take hleast => rw [insert_empty_eq, Set.ncard_singleton]
  | full hfull => exact absurd (hfull (show (0 : ℕ) ∈ pagePool by simp [pagePool])) (Set.notMem_empty 0)

end N7OS
