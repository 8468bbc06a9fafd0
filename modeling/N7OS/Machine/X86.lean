import N7OS.Foundation.ByteMemory
import N7OS.Machine.Integers

/-! # The part of the processor that a context switch uses

The registers that `ctx_sw` names, moves between registers and memory, `push`
and `ret`.
-/
namespace N7OS
open ByteMemory

inductive Reg
  | eax
  | ebx
  | esp
  | ebp
  | esi
  | edi
deriving DecidableEq

structure Cpu where
  gpr : Reg → U32
  mem : Memory

inductive Instr
  | load (off : U32) (base dst : Reg)
  | store (src : Reg) (off : U32) (base : Reg)

def Instr.exec (c : Cpu) : Instr → Cpu
  | .load off base dst =>
    { c with gpr := Function.update c.gpr dst (load32 c.mem (c.gpr base + off).toNat) }
  | .store src off base =>
    { c with mem := store32 c.mem (c.gpr base + off).toNat (c.gpr src) }

def execute (code : List Instr) (c : Cpu) : Cpu := code.foldl Instr.exec c

def Cpu.push (v : U32) (c : Cpu) : Cpu :=
  { gpr := Function.update c.gpr .esp (c.gpr .esp - 4#32)
    mem := store32 c.mem (c.gpr .esp - 4#32).toNat v }

/-- The address that `ret` jumps to. -/
def Cpu.returnAddress (c : Cpu) : U32 := load32 c.mem (c.gpr .esp).toNat

def Cpu.ret (c : Cpu) : Cpu := { c with gpr := Function.update c.gpr .esp (c.gpr .esp + 4#32) }

/-- The five words of `regs`, in its order. -/
@[ext] structure Context where
  ebx : U32
  esp : U32
  ebp : U32
  esi : U32
  edi : U32

def Cpu.context (c : Cpu) : Context := ⟨c.gpr .ebx, c.gpr .esp, c.gpr .ebp, c.gpr .esi, c.gpr .edi⟩

def loadContext (m : Memory) (a : ℕ) : Context :=
  ⟨load32 m a, load32 m (a + 4), load32 m (a + 8), load32 m (a + 12), load32 m (a + 16)⟩

def storeContext (m : Memory) (a : ℕ) (x : Context) : Memory :=
  store32 (store32 (store32 (store32 (store32 m a x.ebx) (a + 4) x.esp) (a + 8) x.ebp) (a + 12) x.esi)
    (a + 16) x.edi

/-- `ctx_sw` up to its `ret`. -/
def ctxSw : List Instr :=
  [.load 4#32 .esp .eax,
    .store .ebx 0#32 .eax,
    .store .esp 4#32 .eax,
    .store .ebp 8#32 .eax,
    .store .esi 12#32 .eax,
    .store .edi 16#32 .eax,
    .load 8#32 .esp .eax,
    .load 0#32 .eax .ebx,
    .load 4#32 .eax .esp,
    .load 8#32 .eax .ebp,
    .load 12#32 .eax .esi,
    .load 16#32 .eax .edi]

variable {m m' : Memory} {a b x : ℕ} {c : Cpu}

@[simp] theorem Cpu.ret_mem (c : Cpu) : c.ret.mem = c.mem := rfl

theorem loadContext_congr (h : ∀ x, a ≤ x → x < a + 20 → m x = m' x) :
    loadContext m a = loadContext m' a := by
  have hword : ∀ k, k ≤ 16 → load32 m (a + k) = load32 m' (a + k) := fun k hk =>
    load32_congr (fun x h1 h2 => h x (by omega) (by omega))
  have h0 := hword 0 (by omega)
  rw [Nat.add_zero] at h0
  rw [loadContext, loadContext, h0, hword 4 (by omega), hword 8 (by omega), hword 12 (by omega),
    hword 16 (by omega)]

theorem storeContext_of_outside (v : Context) (h : x < a ∨ a + 20 ≤ x) :
    storeContext m a v x = m x := by
  rw [storeContext, store32_of_outside _ (by omega), store32_of_outside _ (by omega),
    store32_of_outside _ (by omega), store32_of_outside _ (by omega), store32_of_outside _ (by omega)]

@[simp] theorem loadContext_storeContext (m : Memory) (a : ℕ) (v : Context) :
    loadContext (storeContext m a v) a = v := by
  have hskip : ∀ (m : Memory) (j k : ℕ) (w : U32), j + 4 ≤ k ∨ k + 4 ≤ j →
      load32 (store32 m (a + j) w) (a + k) = load32 m (a + k) := fun m j k w h =>
    load32_store32_of_disjoint w (by omega)
  ext1
  · have h0 : ∀ (m : Memory) (j : ℕ) (w : U32), 4 ≤ j →
        load32 (store32 m (a + j) w) a = load32 m a := fun m j w h =>
      load32_store32_of_disjoint w (by omega)
    simp only [loadContext, storeContext]
    rw [h0 _ _ _ (by omega), h0 _ _ _ (by omega), h0 _ _ _ (by omega), h0 _ _ _ (by omega),
      load32_store32_same]
  · simp only [loadContext, storeContext]
    rw [hskip _ _ _ _ (by omega), hskip _ _ _ _ (by omega), hskip _ _ _ _ (by omega), load32_store32_same]
  · simp only [loadContext, storeContext]
    rw [hskip _ _ _ _ (by omega), hskip _ _ _ _ (by omega), load32_store32_same]
  · simp only [loadContext, storeContext]
    rw [hskip _ _ _ _ (by omega), load32_store32_same]
  · simp only [loadContext, storeContext]
    rw [load32_store32_same]

theorem toNat_add_offset {v w : U32} {n : ℕ} (h : v.toNat + n < 2 ^ 32) (hw : w.toNat = n) :
    (v + w).toNat = v.toNat + n := by
  rw [BitVec.toNat_add, hw, Nat.mod_eq_of_lt h]

/-- `ctx_sw` stores the registers in its first argument and then loads them from
its second. -/
theorem execute_ctxSw {old new : U32} (hesp : (c.gpr .esp).toNat + 12 < 2 ^ 32)
    (hold : load32 c.mem ((c.gpr .esp).toNat + 4) = old) (hnew : load32 c.mem ((c.gpr .esp).toNat + 8) = new)
    (ho : old.toNat + 20 < 2 ^ 32) (hn : new.toNat + 20 < 2 ^ 32)
    (hdisj : (c.gpr .esp).toNat + 12 ≤ old.toNat ∨ old.toNat + 20 ≤ (c.gpr .esp).toNat + 8) :
    (execute ctxSw c).mem = storeContext c.mem old.toNat c.context ∧
      (execute ctxSw c).context = loadContext (storeContext c.mem old.toNat c.context) new.toNat := by
  have h4 : (c.gpr .esp + 4#32).toNat = (c.gpr .esp).toNat + 4 := toNat_add_offset (by omega) rfl
  have h8 : (c.gpr .esp + 8#32).toNat = (c.gpr .esp).toNat + 8 := toNat_add_offset (by omega) rfl
  have ho4 : (old + 4#32).toNat = old.toNat + 4 := toNat_add_offset (by omega) rfl
  have ho8 : (old + 8#32).toNat = old.toNat + 8 := toNat_add_offset (by omega) rfl
  have ho12 : (old + 12#32).toNat = old.toNat + 12 := toNat_add_offset (by omega) rfl
  have ho16 : (old + 16#32).toNat = old.toNat + 16 := toNat_add_offset (by omega) rfl
  have hn4 : (new + 4#32).toNat = new.toNat + 4 := toNat_add_offset (by omega) rfl
  have hn8 : (new + 8#32).toNat = new.toNat + 8 := toNat_add_offset (by omega) rfl
  have hn12 : (new + 12#32).toNat = new.toNat + 12 := toNat_add_offset (by omega) rfl
  have hn16 : (new + 16#32).toNat = new.toNat + 16 := toNat_add_offset (by omega) rfl
  have hsaved : execute (ctxSw.take 6) c =
      ⟨Function.update c.gpr .eax old, storeContext c.mem old.toNat c.context⟩ := by
    simp [execute, ctxSw, Instr.exec, storeContext, Cpu.context, h4, hold, ho4, ho8, ho12, ho16]
  have harg : load32 (storeContext c.mem old.toNat c.context) ((c.gpr .esp).toNat + 8) = new := by
    rw [← hnew]
    exact load32_congr (fun x h1 h2 => storeContext_of_outside _ (by omega))
  have hsplit : execute ctxSw c = execute (ctxSw.drop 6) (execute (ctxSw.take 6) c) := by
    rw [execute, execute, execute, ← List.foldl_append, List.take_append_drop]
  rw [hsplit, hsaved]
  generalize storeContext c.mem old.toNat c.context = m at harg ⊢
  constructor
  · simp [execute, ctxSw, Instr.exec]
  · simp [execute, ctxSw, Instr.exec, loadContext, Cpu.context, h8, harg, hn4, hn8, hn12, hn16]

end N7OS
