import N7OS.Foundation.BlockMove
import N7OS.Foundation.PackedWords
import N7OS.Machine.Integers

/-! # `memcpy`, `memmove` and `memset`

In `lib/string.c` they are the string instructions of the i386 with a repeat prefix. The
direction flag tells which way these go; `memmove` sets it for an overlap and leaves it so.
-/
namespace N7OS.StringOps
open ByteMemory

/-- The registers of the string instructions, the direction flag and the memory. -/
structure StringCpu where
  ecx : U32
  esi : U32
  edi : U32
  df : Bool
  mem : Memory

/-- How far an instruction on `w` bytes moves its pointers. -/
def StringCpu.delta (c : StringCpu) (w : U32) : U32 := if c.df then -w else w

def movsb (c : StringCpu) : StringCpu :=
  { c with
    mem := Function.update c.mem c.edi.toNat (c.mem c.esi.toNat)
    esi := c.esi + c.delta 1#32
    edi := c.edi + c.delta 1#32 }

def movsl (c : StringCpu) : StringCpu :=
  { c with
    mem := store32 c.mem c.edi.toNat (load32 c.mem c.esi.toNat)
    esi := c.esi + c.delta 4#32
    edi := c.edi + c.delta 4#32 }

def stosb (al : U8) (c : StringCpu) : StringCpu :=
  { c with mem := Function.update c.mem c.edi.toNat al, edi := c.edi + c.delta 1#32 }

def stosl (eax : U32) (c : StringCpu) : StringCpu :=
  { c with mem := store32 c.mem c.edi.toNat eax, edi := c.edi + c.delta 4#32 }

/-- The repeat prefix. -/
def rep (op : StringCpu → StringCpu) (c : StringCpu) : StringCpu := { op^[c.ecx.toNat] c with ecx := 0#32 }

def memcpy (dst src n : U32) (c : StringCpu) : StringCpu :=
  let c := rep movsl { c with ecx := n >>> 2, esi := src, edi := dst, df := false }
  rep movsb { c with ecx := n &&& 3#32 }

def memmove (dst src n : U32) (c : StringCpu) : StringCpu :=
  if dst < src then rep movsb { c with ecx := n, esi := src, edi := dst, df := false }
  else rep movsb { c with ecx := n, esi := src + (n - 1#32), edi := dst + (n - 1#32), df := true }

def memset (dst : U32) (v : U8) (n : U32) (c : StringCpu) : StringCpu :=
  let eax := v.setWidth 32 * 0x01010101#32
  let c := rep (stosl eax) { c with ecx := n >>> 2, edi := dst, df := false }
  rep (stosb (eax.setWidth 8)) { c with ecx := n &&& 3#32 }

section
variable {c : StringCpu} {k w : ℕ}

/-- What so many steps leave: the pointers are past the bytes moved. -/
def moved (c : StringCpu) (n : ℕ) : StringCpu :=
  { c with
    mem := move c.mem c.edi.toNat c.esi.toNat n
    esi := c.esi + BitVec.ofNat 32 n
    edi := c.edi + BitVec.ofNat 32 n }

theorem toNat_add_ofNat {v : U32} (h : v.toNat + k < 2 ^ 32) : (v + BitVec.ofNat 32 k).toNat = v.toNat + k := by
  rw [BitVec.toNat_add, BitVec.toNat_ofNat, Nat.mod_eq_of_lt (by omega : k < 2 ^ 32), Nat.mod_eq_of_lt h]

/-- The way up is open. -/
structure Upwards (c : StringCpu) (n : ℕ) : Prop where
  df : c.df = false
  src : c.esi.toNat + n ≤ 2 ^ 32
  dst : c.edi.toNat + n ≤ 2 ^ 32
  apart : c.edi.toNat ≤ c.esi.toNat ∨ c.esi.toNat + n ≤ c.edi.toNat

/-- Steps upwards of `w` bytes each, for any instruction that moves `w` bytes. -/
theorem iterate_up (hw : 0 < w) {op : StringCpu → StringCpu} (hop : ∀ c, c.df = false → op c = moved c w)
    (h : Upwards c (w * k)) : op^[k] c = moved c (w * k) := by
  induction k with
  | zero => simp [moved]
  | succ k ih =>
    have hsrc := h.src
    have hdst := h.dst
    have hapart := h.apart
    rw [Nat.mul_succ] at hsrc hdst hapart
    have hbefore : Upwards c (w * k) := ⟨h.df, by omega, by omega, by omega⟩
    have hesi : (c.esi + BitVec.ofNat 32 (w * k)).toNat = c.esi.toNat + w * k := toNat_add_ofNat (by omega)
    have hedi : (c.edi + BitVec.ofNat 32 (w * k)).toNat = c.edi.toNat + w * k := toNat_add_ofNat (by omega)
    rw [Function.iterate_succ_apply', ih hbefore, hop (moved c (w * k)) h.df]
    simp only [moved, hesi, hedi, move_up (m := c.mem) (a := w * k) (b := w) hapart, BitVec.add_assoc, ← BitVec.ofNat_add,
      Nat.mul_succ]

theorem movsb_up (hdf : c.df = false) : movsb c = moved c 1 := by
  simp [movsb, moved, StringCpu.delta, hdf, update_apply_move]

theorem movsl_up (hdf : c.df = false) : movsl c = moved c 4 := by
  simp [movsl, moved, StringCpu.delta, hdf, store32_load32]

theorem words_and_bytes (n : U32) : 4 * (n >>> 2).toNat + (n &&& 3#32).toNat = n.toNat := by
  have hand : (n &&& 3#32).toNat = n.toNat % 4 := by
    rw [BitVec.toNat_and, show (3#32).toNat = 2 ^ 2 - 1 from rfl, Nat.and_two_pow_sub_one_eq_mod]
  rw [hand, BitVec.toNat_ushiftRight, Nat.shiftRight_eq_div_pow]
  omega

variable {dst src n : U32}

/-- Words and then bytes: the block is copied if it does not overlap, or lies above. -/
theorem memcpy_mem (hsrc : src.toNat + n.toNat ≤ 2 ^ 32) (hdst : dst.toNat + n.toNat ≤ 2 ^ 32)
    (hapart : dst.toNat ≤ src.toNat ∨ src.toNat + n.toNat ≤ dst.toNat) (c : StringCpu) :
    (memcpy dst src n c).mem = move c.mem dst.toNat src.toNat n.toNat ∧ (memcpy dst src n c).df = false := by
  have hsum := words_and_bytes n
  have hbyte : (n &&& 3#32).toNat < 4 := by
    have hle := Nat.and_le_right (n := n.toNat) (m := 3)
    rw [BitVec.toNat_and]
    exact Nat.lt_succ_of_le hle
  generalize hq : (n >>> 2).toNat = q at hsum
  generalize hr : (n &&& 3#32).toNat = r at hsum hbyte
  have hwords : movsl^[q] ⟨n >>> 2, src, dst, false, c.mem⟩ = moved ⟨n >>> 2, src, dst, false, c.mem⟩ (4 * q) :=
    iterate_up (by decide) (fun c => movsl_up) ⟨rfl, by dsimp only; omega, by dsimp only; omega, by dsimp only; omega⟩
  have hrun : memcpy dst src n c =
      { movsb^[r] { moved ⟨n >>> 2, src, dst, false, c.mem⟩ (4 * q) with ecx := n &&& 3#32 } with ecx := 0#32 } := by
    simp only [memcpy, rep, hq, hr, hwords]
  rw [hrun]
  by_cases hnone : r = 0
  · have hn : n.toNat = 4 * q := by omega
    rw [hnone, hn]
    exact ⟨rfl, rfl⟩
  · have hesi : (src + BitVec.ofNat 32 (4 * q)).toNat = src.toNat + 4 * q := toNat_add_ofNat (by omega)
    have hedi : (dst + BitVec.ofNat 32 (4 * q)).toNat = dst.toNat + 4 * q := toNat_add_ofNat (by omega)
    have hup : Upwards { moved ⟨n >>> 2, src, dst, false, c.mem⟩ (4 * q) with ecx := n &&& 3#32 } (1 * r) :=
      ⟨rfl, by simp only [moved, hesi]; omega, by simp only [moved, hedi]; omega, by simp only [moved, hesi, hedi]; omega⟩
    have hbytes := iterate_up (by decide) (fun c => movsb_up) hup
    have happart' : dst.toNat ≤ src.toNat ∨ src.toNat + (4 * q + r) ≤ dst.toNat := by rwa [hsum]
    rw [hbytes]
    simp only [moved, hesi, hedi, Nat.one_mul, move_up (m := c.mem) happart', hsum, and_self]

/-- Steps downwards, from the last byte of a block. -/
theorem iterate_down {N : ℕ} (hdf : c.df = true) (hsrc : c.esi.toNat + 1 = src.toNat + N) (hdst : c.edi.toNat + 1 = dst.toNat + N)
    (habove : src.toNat ≤ dst.toNat) (hk : k ≤ N) :
    movsb^[k] c =
      { c with
        mem := move c.mem (dst.toNat + (N - k)) (src.toNat + (N - k)) k
        esi := c.esi - BitVec.ofNat 32 k
        edi := c.edi - BitVec.ofNat 32 k } := by
  induction k with
  | zero => simp
  | succ k ih =>
    have hlt := c.esi.isLt
    have hlt' := c.edi.isLt
    have hsub {v : U32} (hv : k ≤ v.toNat) : (v - BitVec.ofNat 32 k).toNat = v.toNat - k := by
      have hv' := v.isLt
      rw [BitVec.toNat_sub, BitVec.toNat_ofNat, Nat.mod_eq_of_lt (by omega : k < 2 ^ 32)]
      omega
    have hesi : (c.esi - BitVec.ofNat 32 k).toNat = src.toNat + (N - (k + 1)) := by
      rw [hsub (by omega)]
      omega
    have hedi : (c.edi - BitVec.ofNat 32 k).toNat = dst.toNat + (N - (k + 1)) := by
      rw [hsub (by omega)]
      omega
    have hnext : N - k = N - (k + 1) + 1 := by omega
    have hmove := move_down (m := c.mem) (a := k) (b := 1) (Nat.add_le_add_right habove (N - (k + 1)))
    rw [Nat.add_assoc, Nat.add_assoc, ← hnext] at hmove
    have hback (v : U32) : v - BitVec.ofNat 32 k + -1#32 = v - BitVec.ofNat 32 (k + 1) := by
      rw [BitVec.ofNat_add, ← BitVec.sub_eq_add_neg, BitVec.sub_sub]
    rw [Function.iterate_succ_apply', ih (by omega)]
    simp only [movsb, StringCpu.delta, hdf, if_true, hesi, hedi, update_apply_move, hmove, hback]

theorem memset_memset (m : Memory) (a : ℕ) (v : U8) (p q : ℕ) :
    ByteMemory.memset (ByteMemory.memset m a v p) (a + p) v q = ByteMemory.memset m a v (p + q) := by
  funext x
  unfold ByteMemory.memset
  split_ifs
  all_goals first
    | rfl
    | omega

theorem byteOf_repeated (v : U8) {k : ℕ} (hk : k < 4) : byteOf (v.setWidth 32 * 0x01010101#32) k = v := by
  have hcases : k = 0 ∨ k = 1 ∨ k = 2 ∨ k = 3 := by omega
  rcases hcases with rfl | rfl | rfl | rfl
  all_goals
    revert v
    decide +kernel

theorem low_repeated (v : U8) : (v.setWidth 32 * 0x01010101#32).setWidth 8 = v := by
  revert v
  decide +kernel

theorem store32_repeated (m : Memory) (a : ℕ) (v : U8) :
    store32 m a (v.setWidth 32 * 0x01010101#32) = ByteMemory.memset m a v 4 := by
  funext x
  unfold store32 ByteMemory.memset
  by_cases hx : a ≤ x ∧ x < a + 4
  · rw [if_pos hx, if_pos hx, byteOf_repeated v (by omega)]
  · rw [if_neg hx, if_neg hx]

def filled (c : StringCpu) (v : U8) (n : ℕ) : StringCpu :=
  { c with mem := ByteMemory.memset c.mem c.edi.toNat v n, edi := c.edi + BitVec.ofNat 32 n }

/-- Stores upwards of `w` equal bytes each. -/
theorem iterate_fill (hw : 0 < w) {v : U8} {op : StringCpu → StringCpu} (hop : ∀ c, c.df = false → op c = filled c v w)
    (hdf : c.df = false) (hdst : c.edi.toNat + w * k ≤ 2 ^ 32) : op^[k] c = filled c v (w * k) := by
  induction k with
  | zero =>
    have hsame : ByteMemory.memset c.mem c.edi.toNat v 0 = c.mem := funext fun x => if_neg (by omega)
    simp [filled, hsame]
  | succ k ih =>
    rw [Nat.mul_succ] at hdst
    have hedi : (c.edi + BitVec.ofNat 32 (w * k)).toNat = c.edi.toNat + w * k := toNat_add_ofNat (by omega)
    rw [Function.iterate_succ_apply', ih (by omega), hop (filled c v (w * k)) hdf]
    simp only [filled, hedi, memset_memset, BitVec.add_assoc, ← BitVec.ofNat_add, Nat.mul_succ]

/-- All the bytes of the block are set, and no other. -/
theorem memset_mem (hdst : dst.toNat + n.toNat ≤ 2 ^ 32) (v : U8) (c : StringCpu) :
    (memset dst v n c).mem = ByteMemory.memset c.mem dst.toNat v n.toNat := by
  have hsum := words_and_bytes n
  have hword (c : StringCpu) (hdf : c.df = false) : stosl (v.setWidth 32 * 0x01010101#32) c = filled c v 4 := by
    simp [stosl, filled, StringCpu.delta, hdf, store32_repeated]
  have hbyte (c : StringCpu) (hdf : c.df = false) :
      stosb ((v.setWidth 32 * 0x01010101#32).setWidth 8) c = filled c v 1 := by
    have hone : Function.update c.mem c.edi.toNat v = ByteMemory.memset c.mem c.edi.toNat v 1 := by
      funext x
      rw [Function.update_apply, ByteMemory.memset]
      exact if_congr (by omega) rfl rfl
    simp [stosb, filled, StringCpu.delta, hdf, low_repeated, hone]
  generalize hq : (n >>> 2).toNat = q at hsum
  generalize hr : (n &&& 3#32).toNat = r at hsum
  have hwords := iterate_fill (c := { c with ecx := n >>> 2, edi := dst, df := false }) (k := q) (by decide) hword rfl
    (by dsimp only; omega)
  simp only [memset, rep, hq, hr, hwords]
  by_cases hnone : r = 0
  · rw [hnone, ← hsum, hnone]
    rfl
  · have hedi : (dst + BitVec.ofNat 32 (4 * q)).toNat = dst.toNat + 4 * q := toNat_add_ofNat (by omega)
    have hbytes := iterate_fill (c := { filled { c with ecx := n >>> 2, edi := dst, df := false } v (4 * q) with
      ecx := n &&& 3#32 }) (k := r) (by decide) hbyte rfl (by simp only [filled, hedi]; omega)
    rw [hbytes]
    simp only [filled, hedi, Nat.one_mul, memset_memset, hsum]

/-- Whatever the overlap is, the block arrives as it was; the flag stays set if the copy went down. -/
theorem memmove_moves (hsrc : src.toNat + n.toNat ≤ 2 ^ 32) (hdst : dst.toNat + n.toNat ≤ 2 ^ 32) (c : StringCpu) :
    (memmove dst src n c).mem = move c.mem dst.toNat src.toNat n.toNat ∧
      ((memmove dst src n c).df = true ↔ src.toNat ≤ dst.toNat) := by
  unfold memmove
  by_cases hlt : dst < src
  · have hlt' : dst.toNat < src.toNat := hlt
    have hup : Upwards ⟨n, src, dst, false, c.mem⟩ (1 * n.toNat) :=
      ⟨rfl, by simpa using hsrc, by simpa using hdst, .inl hlt'.le⟩
    have hbytes := iterate_up (by decide) (fun c => movsb_up) hup
    rw [Nat.one_mul] at hbytes
    rw [if_pos hlt, rep, hbytes]
    exact ⟨rfl, by simp [moved]; omega⟩
  · have hle : src.toNat ≤ dst.toNat := Nat.le_of_not_lt hlt
    rw [if_neg hlt, rep]
    by_cases hnone : n = 0#32
    · subst hnone
      exact ⟨(move_zero _ _ _).symm, by simp [hle]⟩
    · have hpos : 0 < n.toNat := Nat.pos_of_ne_zero fun hzero => hnone (BitVec.eq_of_toNat_eq hzero)
      have hpred : (n - 1#32).toNat = n.toNat - 1 := by
        have hlt := n.isLt
        rw [BitVec.toNat_sub, show (1#32).toNat = 1 from rfl]
        omega
      have hlast {v : U32} (hv : v.toNat + n.toNat ≤ 2 ^ 32) : (v + (n - 1#32)).toNat + 1 = v.toNat + n.toNat := by
        rw [BitVec.toNat_add, hpred, Nat.mod_eq_of_lt (by omega)]
        omega
      have hbytes := iterate_down (c := ⟨n, src + (n - 1#32), dst + (n - 1#32), true, c.mem⟩) rfl (hlast hsrc) (hlast hdst)
        hle (le_refl n.toNat)
      rw [Nat.sub_self, Nat.add_zero, Nat.add_zero] at hbytes
      rw [hbytes]
      exact ⟨rfl, by simp [hle]⟩

/-- Three bytes one place up. -/
theorem memmove_moves_overlap :
    (memmove 0x1001#32 0x1000#32 3#32 ⟨0#32, 0#32, 0#32, false, fun x => BitVec.ofNat 8 x⟩).mem 0x1003 = 2#8 := by
  rw [(memmove_moves (by decide) (by decide) _).1]
  rfl

end

end N7OS.StringOps
