import N7OS.Foundation.MemoryFrame
import N7OS.Foundation.Positional
import N7OS.Lib.Memmove
import N7OS.Processor.ExceptionTasks

/-! # The trap screen

`kernel/debugger.c`: a form is copied to the screen, the registers of a task segment are
written into its fields, and the space bar changes between it and what was there before.
-/
namespace N7OS
open ByteMemory Execution

def screenBase : ℕ := 0xB8000

/-- The bytes of the screen. -/
abbrev screen : Set ℕ := object screenBase 4000

/-- `disp`. -/
def disp (i : ℕ) : U8 := if i < 10 then BitVec.ofNat 8 (0x30 + i) else BitVec.ofNat 8 (0x41 + (i - 10))

/-- The loop of `write_hex`. -/
def hexLoop : ℕ → ℕ → U32 → Memory → Memory
  | 0, _, _, m => m
  | length + 1, p, value, m => hexLoop length (p - 2) (value >>> 4) (store8 m (p - 2) (disp (value &&& 15#32).toNat))

def writeHex (line col length : ℕ) (value : U32) (m : Memory) : Memory :=
  hexLoop length (screenBase + ((line - 1) * 160 + (col + length - 1) * 2)) value m

def traceTrap (m : Memory) (t : ℕ) : U16 := m (t + traceTrapOffset + 1) ++ m (t + traceTrapOffset)

/-- One call of `write_hex`, whose value is taken from the words and the trace bit of the segment. -/
structure HexField where
  line : ℕ
  col : ℕ
  length : ℕ
  value : (TssField → U32) → U16 → U32

/-- The calls of `dump_registers`, in its order. -/
def dumpFields (trapno errorCode t : U32) : List HexField := [
  ⟨7, 21, 2, fun _ _ => trapno⟩,
  ⟨7, 60, 8, fun _ _ => errorCode⟩,
  ⟨9, 21, 8, fun _ _ => t⟩,
  ⟨9, 69, 4, fun words _ => words .backLink⟩,
  ⟨11, 11, 8, fun words _ => words .esp⟩,
  ⟨11, 32, 4, fun words _ => words .ss⟩,
  ⟨11, 52, 8, fun words _ => words .esp0⟩,
  ⟨11, 74, 4, fun words _ => words .ss0⟩,
  ⟨13, 11, 8, fun words _ => words .esp1⟩,
  ⟨13, 32, 4, fun words _ => words .ss1⟩,
  ⟨13, 52, 8, fun words _ => words .esp2⟩,
  ⟨13, 74, 4, fun words _ => words .ss2⟩,
  ⟨15, 15, 8, fun words _ => words .eip⟩,
  ⟨15, 41, 4, fun words _ => words .cs⟩,
  ⟨15, 66, 8, fun words _ => words .eflags⟩,
  ⟨17, 10, 8, fun words _ => words .eax⟩,
  ⟨17, 30, 8, fun words _ => words .ebx⟩,
  ⟨17, 50, 8, fun words _ => words .ecx⟩,
  ⟨17, 70, 8, fun words _ => words .edx⟩,
  ⟨19, 10, 8, fun words _ => words .esi⟩,
  ⟨19, 30, 8, fun words _ => words .edi⟩,
  ⟨19, 50, 8, fun words _ => words .ebp⟩,
  ⟨19, 72, 4, fun words _ => words .ldt⟩,
  ⟨21, 12, 4, fun words _ => words .ds⟩,
  ⟨21, 32, 4, fun words _ => words .es⟩,
  ⟨21, 52, 4, fun words _ => words .fs⟩,
  ⟨21, 72, 4, fun words _ => words .gs⟩,
  ⟨23, 30, 8, fun words _ => words .cr3⟩,
  ⟨23, 70, 1, fun _ trace => trace.setWidth 32 &&& 1#32⟩]

def HexField.write (t : U32) (f : HexField) (m : Memory) : Memory :=
  writeHex f.line f.col f.length (f.value (tssWords m t.toNat) (traceTrap m t.toNat)) m

/-- `task_dump_screen` has a newline after each line, which `k` steps over. -/
def dumpText (taskDumpScreen : ℕ → U8) (m : Memory) : Memory :=
  countedLoop 25 (fun i m => countedLoop 80 (fun j m =>
    store8 m (screenBase + (i * 160 + j * 2)) (taskDumpScreen (i * 81 + j))) m) m

def dumpColours (m : Memory) : Memory :=
  let m := countedLoop (80 * 25) (fun i m => store8 m (screenBase + (2 * i + 1)) 0x30#8) m
  countedLoop (239 - 161) (fun i m => store8 m (screenBase + (2 * (161 + i) + 1)) 0x34#8) m

def dumpRegisters (taskDumpScreen : ℕ → U8) (trapno errorCode t : U32) (m : Memory) : Memory :=
  (dumpFields trapno errorCode t).foldl (fun m f => f.write t m) (dumpColours (dumpText taskDumpScreen m))

def copyBlock (dst src n : U32) (m : Memory) : Memory := (StringOps.memcpy dst src n ⟨0#32, 0#32, 0#32, false, m⟩).mem

/-- `trap_handler` at the next read of port 0x60; `held` is the inner loop, which waits for something else than a space. -/
structure TrapHandler where
  mem : Memory
  d : Bool
  held : Bool

/-- What does not change while the handler runs: its arguments, the segment it found and where `video_mem` is. -/
structure TrapCall where
  taskDumpScreen : ℕ → U8
  trapno : U32
  errorCode : U32
  t : U32
  videoMem : U32

namespace TrapCall

def dump (k : TrapCall) : Memory → Memory := dumpRegisters k.taskDumpScreen k.trapno k.errorCode k.t

/-- `trap_handler` up to its loop. -/
def start (k : TrapCall) (m : Memory) : TrapHandler :=
  ⟨k.dump (copyBlock k.videoMem (BitVec.ofNat 32 screenBase) 4000#32 m), true, false⟩

def read (k : TrapCall) (s : TrapHandler) (c : U8) : TrapHandler :=
  if s.held then { s with held := c == 0x39#8 }
  else if c = 0x39#8 then
    ⟨if !s.d then k.dump s.mem else copyBlock (BitVec.ofNat 32 screenBase) k.videoMem 4000#32 s.mem, !s.d, true⟩
  else s

def run (k : TrapCall) (m : Memory) (codes : List U8) : TrapHandler := codes.foldl k.read (k.start m)

end TrapCall

/-- How often the space bar goes down in what is read, where a code that is read again is the same key. -/
def presses : Bool → List U8 → ℕ
  | _, [] => 0
  | held, c :: codes => (if c = 0x39#8 ∧ held = false then 1 else 0) + presses (c == 0x39#8) codes

/-! ## Hexadecimal fields -/

/-- The lowest `n` digits, the most significant one first. -/
def hexDigits : ℕ → ℕ → List ℕ
  | 0, _ => []
  | n + 1, v => hexDigits n (v / 16) ++ [v % 16]

/-- Every second byte. -/
def cellText (m : Memory) (start n : ℕ) : List U8 := (List.range n).map fun j => m (start + 2 * j)

/-- The digits of the number stand there. -/
def ReadsHex (m : Memory) (start n k : ℕ) : Prop :=
  ∃ ds : List ℕ, cellText m start n = ds.map disp ∧ (∀ d ∈ ds, d < 16) ∧ Positional.value 16 ds = k

section
variable {m : Memory} {n start x k k' : ℕ} {v : U32}

theorem hexDigits_lt (n k : ℕ) : ∀ d ∈ hexDigits n k, d < 16 := by
  induction n generalizing k with
  | zero => exact fun d hd => absurd hd List.not_mem_nil
  | succ n ih =>
    intro d hd
    rcases List.mem_append.mp hd with hd | hd
    · exact ih _ d hd
    · have hlast := List.mem_singleton.mp hd
      omega

theorem value_hexDigits (n k : ℕ) : Positional.value 16 (hexDigits n k) = k % 16 ^ n := by
  induction n generalizing k with
  | zero => simp [hexDigits, Nat.mod_one]
  | succ n ih =>
    rw [hexDigits, Positional.value_concat, ih, pow_succ, Nat.mul_comm (16 ^ n), Nat.mod_mul]
    ring

theorem cellText_succ (m : Memory) (start n : ℕ) : cellText m start (n + 1) = cellText m start n ++ [m (start + 2 * n)] := by
  simp [cellText, List.range_succ]

/-- The bytes below the pointer, at every second address. -/
theorem hexLoop_outside (hx : ∀ j < n, x ≠ start + 2 * j) : hexLoop n (start + 2 * n) v m x = m x := by
  induction n generalizing v m with
  | zero => rfl
  | succ n ih =>
    have hstep : start + 2 * (n + 1) - 2 = start + 2 * n := by omega
    rw [hexLoop, hstep, ih (fun j hj => hx j (by omega)), store8, Function.update_of_ne (hx n (by omega))]

theorem hexLoop_text (n start : ℕ) (v : U32) (m : Memory) :
    cellText (hexLoop n (start + 2 * n) v m) start n = (hexDigits n v.toNat).map disp := by
  induction n generalizing v m with
  | zero => rfl
  | succ n ih =>
    have hstep : start + 2 * (n + 1) - 2 = start + 2 * n := by omega
    have hshift : (v >>> 4).toNat = v.toNat / 16 := by rw [BitVec.toNat_ushiftRight, Nat.shiftRight_eq_div_pow]
    have hlow : (v &&& 15#32).toNat = v.toNat % 16 := by
      rw [BitVec.toNat_and, show (15#32).toNat = 2 ^ 4 - 1 by rfl, Nat.and_two_pow_sub_one_eq_mod]
    rw [cellText_succ, hexLoop, hstep, ih, hexLoop_outside (fun j hj => by omega), hshift, hlow, hexDigits, List.map_append,
      store8, Function.update_self]
    rfl

theorem disp_inj {i j : ℕ} (hi : i < 16) (hj : j < 16) (h : disp i = disp j) : i = j := by
  have hnat := congrArg BitVec.toNat h
  unfold disp at hnat
  split at hnat <;> split at hnat <;> simp only [BitVec.toNat_ofNat] at hnat <;> omega

theorem map_disp_inj {ds es : List ℕ} (hds : ∀ d ∈ ds, d < 16) (hes : ∀ d ∈ es, d < 16)
    (h : ds.map disp = es.map disp) : ds = es := by
  induction ds generalizing es with
  | nil => exact (List.map_eq_nil_iff.mp h.symm).symm
  | cons d ds ih =>
    cases es with
    | nil => cases h
    | cons e es =>
      obtain ⟨hfirst, hrest⟩ := List.cons.inj h
      obtain ⟨hd, hds⟩ := List.forall_mem_cons.mp hds
      obtain ⟨he, hes⟩ := List.forall_mem_cons.mp hes
      rw [disp_inj hd he hfirst, ih hds hes hrest]

/-- A field shows one number. -/
theorem ReadsHex.unique (h : ReadsHex m start n k) (h' : ReadsHex m start n k') : k = k' := by
  obtain ⟨ds, htext, hds, rfl⟩ := h
  obtain ⟨es, htext', hes, rfl⟩ := h'
  rw [htext] at htext'
  rw [map_disp_inj hds hes htext']

end

/-! ## The form -/

namespace HexField

/-- The address of the first character. -/
def start (f : HexField) : ℕ := screenBase + ((f.line - 1) * 160 + (f.col - 1) * 2)

def cells (f : HexField) : Set ℕ := {x | ∃ j < f.length, x = f.start + 2 * j}

/-- Where it stands. -/
def place (f : HexField) : ℕ × ℕ × ℕ := (f.line, f.col, f.length)

def OnScreen (p : ℕ × ℕ × ℕ) : Prop := (1 ≤ p.1 ∧ p.1 ≤ 25) ∧ 1 ≤ p.2.1 ∧ p.2.1 + p.2.2 ≤ 81

def Beside (p q : ℕ × ℕ × ℕ) : Prop := p.1 ≠ q.1 ∨ p.2.1 + p.2.2 ≤ q.2.1 ∨ q.2.1 + q.2.2 ≤ p.2.1

instance : DecidablePred OnScreen := fun _ => inferInstanceAs (Decidable (_ ∧ _))

instance : DecidableRel Beside := fun _ _ => inferInstanceAs (Decidable (_ ∨ _))

end HexField

section
variable {m m' : Memory} {trapno errorCode t : U32} {f g : HexField}

/-- The fields do not depend on what is shown, and lie beside each other. -/
theorem places_eq (trapno errorCode t : U32) :
    (dumpFields trapno errorCode t).map HexField.place = (dumpFields 0#32 0#32 0#32).map HexField.place := rfl

theorem onScreen (hf : f ∈ dumpFields trapno errorCode t) : HexField.OnScreen f.place := by
  have hall : ∀ p ∈ (dumpFields 0#32 0#32 0#32).map HexField.place, HexField.OnScreen p := by decide
  exact hall _ (places_eq trapno errorCode t ▸ List.mem_map_of_mem hf)

theorem cells_disjoint (hf : HexField.OnScreen f.place) (hg : HexField.OnScreen g.place)
    (h : HexField.Beside f.place g.place) : Disjoint f.cells g.cells := by
  rw [Set.disjoint_left]
  rintro x ⟨j, hj, rfl⟩ ⟨k, hk, heq⟩
  unfold HexField.start at heq
  unfold HexField.OnScreen HexField.place at hf hg
  unfold HexField.Beside HexField.place at h
  dsimp only at hf hg h
  omega

theorem fields_disjoint (trapno errorCode t : U32) :
    (dumpFields trapno errorCode t).Pairwise (fun f g => Disjoint f.cells g.cells) := by
  have hbeside : ((dumpFields 0#32 0#32 0#32).map HexField.place).Pairwise HexField.Beside := by decide
  rw [← places_eq trapno errorCode t, List.pairwise_map] at hbeside
  exact hbeside.imp_of_mem fun hf hg h => cells_disjoint (onScreen hf) (onScreen hg) h

theorem cells_subset (h : HexField.OnScreen f.place) : f.cells ⊆ screen := by
  rintro x ⟨j, hj, rfl⟩
  unfold HexField.OnScreen HexField.place at h
  unfold HexField.start screen object
  dsimp only at h
  rw [Set.mem_Ico]
  omega

theorem writeHex_start (h : HexField.OnScreen f.place) (v : U32) (m : Memory) :
    writeHex f.line f.col f.length v m = hexLoop f.length (f.start + 2 * f.length) v m := by
  have hcol : 1 ≤ f.col := h.2.1
  have hstart : screenBase + ((f.line - 1) * 160 + (f.col + f.length - 1) * 2) = f.start + 2 * f.length := by
    unfold HexField.start
    omega
  rw [writeHex, hstart]

theorem sameOutside_write (h : HexField.OnScreen f.place) (t : U32) (m : Memory) :
    SameOutside f.cells m (f.write t m) := by
  intro x hx
  rw [HexField.write, writeHex_start h]
  exact hexLoop_outside fun j hj heq => hx ⟨j, hj, heq⟩

/-- The number of the field, in full if the field is wide enough. -/
theorem write_reads (h : HexField.OnScreen f.place) (t : U32) (m : Memory) :
    ReadsHex (f.write t m) f.start f.length
      ((f.value (tssWords m t.toNat) (traceTrap m t.toNat)).toNat % 16 ^ f.length) := by
  rw [HexField.write, writeHex_start h]
  exact ⟨_, hexLoop_text _ _ _ _, hexDigits_lt _ _, value_hexDigits _ _⟩

theorem dumpText_apply (taskDumpScreen : ℕ → U8) (m : Memory) :
    (∀ i < 25, ∀ j < 80, dumpText taskDumpScreen m (screenBase + (i * 160 + j * 2)) = taskDumpScreen (i * 81 + j)) ∧
      SameOutside screen m (dumpText taskDumpScreen m) := by
  have hline := fun i m => countedLoop_store8 (f := fun j => screenBase + (i * 160 + j * 2))
    (fun j k h => by dsimp only at h; omega) (fun j => taskDumpScreen (i * 81 + j)) 80 m
  refine countedLoop_invariant (fun n (m' : Memory) =>
    (∀ i < n, ∀ j < 80, m' (screenBase + (i * 160 + j * 2)) = taskDumpScreen (i * 81 + j)) ∧ SameOutside screen m m')
    ⟨fun i hi => absurd hi (Nat.not_lt_zero i), .refl _ _⟩ ?_
  rintro n m' hn ⟨hwritten, hout⟩
  obtain ⟨hnew, hkept⟩ := hline n m'
  constructor
  · intro i hi j hj
    by_cases hin : i = n
    · subst hin
      exact hnew j hj
    · exact (hkept _ fun k hk => by omega).trans (hwritten i (by omega) j hj)
  · intro x hx
    have hout' := notMem_object.mp hx
    exact (hkept x fun k hk => by omega).trans (hout hx)

theorem dumpColours_apply (m : Memory) :
    (∀ c < 2000, dumpColours m (screenBase + (2 * c + 1)) = if 161 ≤ c ∧ c < 239 then 0x34#8 else 0x30#8) ∧
      ∀ x, (∀ c < 2000, x ≠ screenBase + (2 * c + 1)) → dumpColours m x = m x := by
  obtain ⟨hall, hkept⟩ := countedLoop_store8 (f := fun i => screenBase + (2 * i + 1))
    (fun i j h => by dsimp only at h; omega) (fun _ => 0x30#8) (80 * 25) m
  obtain ⟨htitle, hkept'⟩ := countedLoop_store8 (f := fun i => screenBase + (2 * (161 + i) + 1))
    (fun i j h => by dsimp only at h; omega) (fun _ => 0x34#8) (239 - 161)
    (countedLoop (80 * 25) (fun i m => store8 m (screenBase + (2 * i + 1)) 0x30#8) m)
  constructor
  · intro c hc
    by_cases hin : 161 ≤ c ∧ c < 239
    · rw [if_pos hin]
      have hread := htitle (c - 161) (by omega)
      rwa [show 161 + (c - 161) = c by omega] at hread
    · rw [if_neg hin]
      exact (hkept' _ fun i hi => by omega).trans (hall c (by omega))
  · intro x hx
    exact (hkept' x fun i hi => hx (161 + i) (by omega)).trans (hkept x fun i hi => hx i (by omega))

theorem traceTrap_sameOutside {s : Set ℕ} {ts : ℕ} (h : SameOutside s m m') (hs : Disjoint (object ts sizeofTss) s) :
    traceTrap m' ts = traceTrap m ts := by
  rw [traceTrap, traceTrap, h.apply_object hs (by omega) (by unfold traceTrapOffset sizeofTss; omega),
    h.apply_object hs (by omega) (by unfold traceTrapOffset sizeofTss; omega)]

/-- What the trap screen is to show. -/
structure ShowsDump (taskDumpScreen : ℕ → U8) (trapno errorCode t : U32) (words : TssField → U32) (trace : U16)
    (m : Memory) : Prop where
  fields : ∀ f ∈ dumpFields trapno errorCode t,
    ReadsHex m f.start f.length ((f.value words trace).toNat % 16 ^ f.length)
  form : ∀ i < 25, ∀ j < 80, screenBase + (i * 160 + j * 2) ∉ regions HexField.cells (dumpFields trapno errorCode t) →
    m (screenBase + (i * 160 + j * 2)) = taskDumpScreen (i * 81 + j)
  colours : ∀ c < 2000, m (screenBase + (2 * c + 1)) = if 161 ≤ c ∧ c < 239 then 0x34#8 else 0x30#8

theorem cellText_congr {start n : ℕ} (h : ∀ j < n, m' (start + 2 * j) = m (start + 2 * j)) :
    cellText m' start n = cellText m start n := by
  unfold cellText
  exact List.map_congr_left fun j hj => h j (List.mem_range.mp hj)

theorem dumpRegisters_shows (taskDumpScreen : ℕ → U8) (trapno errorCode t : U32) (m : Memory)
    (ht : Disjoint (object t.toNat sizeofTss) screen) :
    ShowsDump taskDumpScreen trapno errorCode t (tssWords m t.toNat) (traceTrap m t.toNat)
        (dumpRegisters taskDumpScreen trapno errorCode t m) ∧
      SameOutside screen m (dumpRegisters taskDumpScreen trapno errorCode t m) := by
  obtain ⟨hform, htext⟩ := dumpText_apply taskDumpScreen m
  obtain ⟨hcolours, hchars⟩ := dumpColours_apply (dumpText taskDumpScreen m)
  have hcoloursOut : SameOutside screen (dumpText taskDumpScreen m) (dumpColours (dumpText taskDumpScreen m)) := by
    intro x hx
    have hout := notMem_object.mp hx
    exact hchars x fun c hc => by omega
  have hback : SameOutside screen m (dumpColours (dumpText taskDumpScreen m)) := htext.trans hcoloursOut
  have hwrite : ∀ f ∈ dumpFields trapno errorCode t, ∀ m, SameOutside f.cells m (f.write t m) :=
    fun f hf m => sameOutside_write (onScreen hf) t m
  have hfold := sameOutside_foldl (fun f : HexField => f.write t) HexField.cells hwrite
    (dumpColours (dumpText taskDumpScreen m))
  refine ⟨⟨?_, ?_, ?_⟩, ?_⟩
  · have hrely : tssWords (dumpColours (dumpText taskDumpScreen m)) t.toNat = tssWords m t.toNat ∧
        traceTrap (dumpColours (dumpText taskDumpScreen m)) t.toNat = traceTrap m t.toNat :=
      ⟨tssWords_sameOutside hback ht, traceTrap_sameOutside hback ht⟩
    refine foldl_holds (fun f : HexField => f.write t) HexField.cells
      (Q := fun f m' => ReadsHex m' f.start f.length ((f.value (tssWords m t.toNat) (traceTrap m t.toNat)).toNat % 16 ^ f.length))
      (P := fun m' => tssWords m' t.toNat = tssWords m t.toNat ∧ traceTrap m' t.toNat = traceTrap m t.toNat)
      ?_ hwrite ?_ ?_ (fields_disjoint trapno errorCode t) hrely
    · rintro f m₁ m₂ hsame ⟨ds, hds, hlt, hvalue⟩
      exact ⟨ds, (cellText_congr fun j hj => hsame _ ⟨j, hj, rfl⟩).trans hds, hlt, hvalue⟩
    · rintro f hf m₁ ⟨hwords, htrace⟩
      rw [← hwords, ← htrace]
      exact write_reads (onScreen hf) t m₁
    · rintro f hf m₁ ⟨hwords, htrace⟩
      have hbeside := ht.mono_right (cells_subset (onScreen hf))
      exact ⟨(tssWords_sameOutside (hwrite f hf m₁) hbeside).trans hwords,
        (traceTrap_sameOutside (hwrite f hf m₁) hbeside).trans htrace⟩
  · intro i hi j hj hblank
    rw [dumpRegisters, hfold.apply hblank, hchars _ fun c hc => by omega]
    exact hform i hi j hj
  · intro c hc
    rw [dumpRegisters, hfold.apply, hcolours c hc]
    rintro ⟨f, hf, j, hj, heq⟩
    unfold HexField.start at heq
    omega
  · refine hback.trans (hfold.mono ?_)
    rintro x ⟨f, hf, hx⟩
    exact cells_subset (onScreen hf) hx

/-! ## The space bar -/

theorem copyBlock_eq {dst src n : U32} (hsrc : src.toNat + n.toNat ≤ 2 ^ 32) (hdst : dst.toNat + n.toNat ≤ 2 ^ 32)
    (hapart : dst.toNat + n.toNat ≤ src.toNat ∨ src.toNat + n.toNat ≤ dst.toNat) (m : Memory) :
    copyBlock dst src n m = move m dst.toNat src.toNat n.toNat :=
  (StringOps.memcpy_mem hsrc hdst (by omega) _).1

/-- The objects of a call lie apart, and not in the screen. -/
structure TrapCall.Placed (k : TrapCall) : Prop where
  video_le : k.videoMem.toNat + 4000 ≤ 2 ^ 32
  video : Apart (k.videoMem.toNat, 4000) (screenBase, 4000)
  segment : Apart (k.t.toNat, sizeofTss) (screenBase, 4000)
  segmentVideo : Apart (k.t.toNat, sizeofTss) (k.videoMem.toNat, 4000)

/-- The screen shows the registers after an even number of presses, and what was there before after an odd one. -/
structure TrapShown (k : TrapCall) (m : Memory) (d : Bool) (m' : Memory) : Prop where
  shown : if d then ShowsDump k.taskDumpScreen k.trapno k.errorCode k.t (tssWords m k.t.toNat) (traceTrap m k.t.toNat) m'
    else ∀ x ∈ screen, m' x = m x
  saved : ∀ i < 4000, m' (k.videoMem.toNat + i) = m (screenBase + i)
  others : SameOutside (screen ∪ object k.videoMem.toNat 4000) m m'

section
variable {k : TrapCall} (hk : k.Placed)
include hk

/-- The segment is not written to. -/
theorem TrapCall.Placed.segment_disjoint :
    Disjoint (object k.t.toNat sizeofTss) (screen ∪ object k.videoMem.toNat 4000) :=
  Set.disjoint_union_right.mpr ⟨object_disjoint hk.segment, object_disjoint hk.segmentVideo⟩

theorem save_eq (m : Memory) :
    copyBlock k.videoMem (BitVec.ofNat 32 screenBase) 4000#32 m = move m k.videoMem.toNat screenBase 4000 :=
  @copyBlock_eq k.videoMem (BitVec.ofNat 32 screenBase) 4000#32 (by decide) hk.video_le hk.video m

theorem restore_eq (m : Memory) :
    copyBlock (BitVec.ofNat 32 screenBase) k.videoMem 4000#32 m = move m screenBase k.videoMem.toNat 4000 :=
  @copyBlock_eq (BitVec.ofNat 32 screenBase) k.videoMem 4000#32 hk.video_le (by decide) hk.video.symm m

/-- The registers are shown again as they were. -/
theorem dump_shown (hsaved : ∀ i < 4000, m' (k.videoMem.toNat + i) = m (screenBase + i))
    (hothers : SameOutside (screen ∪ object k.videoMem.toNat 4000) m m') : TrapShown k m true (k.dump m') := by
  obtain ⟨hshows, hout⟩ := dumpRegisters_shows k.taskDumpScreen k.trapno k.errorCode k.t m' (object_disjoint hk.segment)
  rw [tssWords_sameOutside hothers hk.segment_disjoint, traceTrap_sameOutside hothers hk.segment_disjoint] at hshows
  refine ⟨hshows, ?_, hothers.trans (hout.mono Set.subset_union_left)⟩
  intro i hi
  have hvideo : k.videoMem.toNat + i ∉ screen := notMem_object.mpr (by have := hk.video; unfold Apart at this; omega)
  exact (hout.apply hvideo).trans (hsaved i hi)

theorem restore_shown (hsaved : ∀ i < 4000, m' (k.videoMem.toNat + i) = m (screenBase + i))
    (hothers : SameOutside (screen ∪ object k.videoMem.toNat 4000) m m') :
    TrapShown k m false (copyBlock (BitVec.ofNat 32 screenBase) k.videoMem 4000#32 m') := by
  have hvideo := hk.video
  unfold Apart at hvideo
  rw [restore_eq hk]
  refine ⟨?_, ?_, hothers.trans ?_⟩
  · intro x hx
    obtain ⟨i, rfl⟩ := Nat.exists_eq_add_of_le hx.1
    have hi : i < 4000 := Nat.lt_of_add_lt_add_left hx.2
    exact (move_inside hi).trans (hsaved i hi)
  · intro i hi
    exact (move_outside (by omega)).trans (hsaved i hi)
  · intro x hx
    exact move_outside (notMem_object.mp fun hin => hx (.inl hin))

theorem start_shown (m : Memory) : TrapShown k m true (k.start m).mem := by
  have hvideo := hk.video
  unfold Apart at hvideo
  rw [TrapCall.start, save_eq hk]
  refine dump_shown hk (fun i hi => move_inside hi) ?_
  intro x hx
  exact move_outside (notMem_object.mp fun hin => hx (.inr hin))

/-- One code read. -/
theorem read_shown {s : TrapHandler} (h : TrapShown k m s.d s.mem) (c : U8) :
    TrapShown k m (k.read s c).d (k.read s c).mem ∧ (k.read s c).held = (c == 0x39#8) ∧
      (k.read s c).d = if c = 0x39#8 ∧ s.held = false then !s.d else s.d := by
  unfold TrapCall.read
  by_cases hheld : s.held
  · rw [if_pos hheld, if_neg (by simp [hheld])]
    exact ⟨h, rfl, rfl⟩
  rw [if_neg hheld]
  by_cases hspace : c = 0x39#8
  · have hpress : c = 0x39#8 ∧ s.held = false := ⟨hspace, by simpa using hheld⟩
    rw [if_pos hspace, if_pos hpress]
    refine ⟨?_, by simp [hspace], rfl⟩
    cases hd : s.d with
    | true =>
      simp only [Bool.not_true, Bool.false_eq_true, if_false]
      exact restore_shown hk h.saved h.others
    | false =>
      simp only [Bool.not_false, if_true]
      exact dump_shown hk h.saved h.others
  · rw [if_neg hspace, if_neg fun hand => hspace hand.1]
    exact ⟨h, by simp [hspace, hheld], rfl⟩

theorem reads_shown (codes : List U8) {s : TrapHandler} (h : TrapShown k m s.d s.mem) :
    TrapShown k m (codes.foldl k.read s).d (codes.foldl k.read s).mem ∧
      (codes.foldl k.read s).d = (s.d ^^ decide (presses s.held codes % 2 = 1)) := by
  induction codes generalizing s with
  | nil => exact ⟨h, by simp [presses]⟩
  | cons c codes ih =>
    obtain ⟨hnext, hheld, hd⟩ := read_shown hk h c
    obtain ⟨hshown, hlast⟩ := ih hnext
    refine ⟨hshown, ?_⟩
    rw [List.foldl_cons, hlast, hd, hheld, presses]
    by_cases hpress : c = 0x39#8 ∧ s.held = false
    · rw [if_pos hpress, if_pos hpress]
      have hparity : (1 + presses (c == 0x39#8) codes) % 2 = 1 ↔ ¬presses (c == 0x39#8) codes % 2 = 1 := by omega
      rw [decide_eq_decide.mpr hparity, decide_not, Bool.not_xor, Bool.xor_not]
    · rw [if_neg hpress, if_neg hpress, Nat.zero_add]

theorem run_shown (m : Memory) (codes : List U8) :
    TrapShown k m (decide (presses false codes % 2 = 0)) (k.run m codes).mem := by
  obtain ⟨hshown, hd⟩ := reads_shown hk codes (s := k.start m) (start_shown hk m)
  have hparity : presses false codes % 2 = 0 ↔ ¬presses false codes % 2 = 1 := by omega
  have hrun : (k.run m codes).d = decide (presses false codes % 2 = 0) := by
    rw [decide_eq_decide.mpr hparity, decide_not, ← Bool.true_xor]
    exact hd
  rw [← hrun]
  exact hshown

end

end

/-- For every stream of codes, the registers are on the screen after an even number of presses of the space bar, and
what was there when the handler began after an odd number; nothing but the screen and the handler's copy of
it is written. -/
theorem trapHandler_toggles {k : TrapCall} (hk : k.Placed) (m : Memory) (codes : List U8) :
    (if presses false codes % 2 = 0 then
      ShowsDump k.taskDumpScreen k.trapno k.errorCode k.t (tssWords m k.t.toNat) (traceTrap m k.t.toNat) (k.run m codes).mem
    else ∀ x ∈ screen, (k.run m codes).mem x = m x) ∧
      SameOutside (screen ∪ object k.videoMem.toNat 4000) m (k.run m codes).mem := by
  have hrun := run_shown hk m codes
  have hshown := hrun.shown
  simp only [decide_eq_true_eq] at hshown
  exact ⟨hshown, hrun.others⟩

/-- A page fault: after the space bar twice, held down once, its number is on the screen. -/
theorem trapHandler_toggles_twice :
    let k : TrapCall := ⟨fun _ => 0x58#8, 14#32, 2#32, 0x131000#32, 0x140000#32⟩
    ReadsHex (k.run (fun _ => 0#8) [0x39#8, 0x39#8, 0xB9#8, 0x39#8, 0xB9#8]).mem (screenBase + (6 * 160 + 20 * 2)) 2 14 ∧
      (k.run (fun _ => 0#8) [0x39#8]).mem screenBase = 0#8 := by
  intro k
  have hk : k.Placed := ⟨by decide, .inr (by decide), .inr (by decide), .inl (by decide)⟩
  have hshown := (trapHandler_toggles hk (fun _ => 0#8) [0x39#8, 0x39#8, 0xB9#8, 0x39#8, 0xB9#8]).1
  have hhidden := (trapHandler_toggles hk (fun _ => 0#8) [0x39#8]).1
  have htwo : presses false [0x39#8, 0x39#8, 0xB9#8, 0x39#8, 0xB9#8] % 2 = 0 := by decide
  have hone : ¬presses false [0x39#8] % 2 = 0 := by decide
  rw [if_pos htwo] at hshown
  rw [if_neg hone] at hhidden
  have hfirst := hshown.fields ⟨7, 21, 2, fun _ _ => 14#32⟩ List.mem_cons_self
  exact ⟨hfirst, hhidden screenBase ⟨le_rfl, by decide⟩⟩

end N7OS
