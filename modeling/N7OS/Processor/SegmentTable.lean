import N7OS.Foundation.Execution
import N7OS.Processor.Descriptors

/-! # The segment table

`setup_gdt` of `kernel/processor_structs.c` writes the table, and `tss_sel_2_tss` of
`kernel/debugger.c` finds a task segment again, from three unaligned loads. The trap
handler goes from its own task to the one that trapped.
-/
namespace N7OS
open ByteMemory Execution

/-- `sizeof(struct x86_tss)`: 25 words and two half-words. -/
def sizeofTss : ℕ := 25 * 4 + 2 * 2

def gdtEntries : ℕ := 8192

def handlerEntries : ℕ := 32

/-- The symbols of the linker. -/
structure GdtSymbols where
  gdt : ℕ
  tss : U32
  trapTss : U32

/-- `&gdt[sel >> 3]`. -/
def gdtEntry (gdt : ℕ) (sel : U16) : ℕ := gdt + 8 * (sel >>> 3).toNat

/-- What the processor finds behind a selector. -/
def descriptorAt (m : Memory) (gdt : ℕ) (sel : U16) : SegmentDescriptor :=
  SegmentDescriptor.decode (load64 m (gdtEntry gdt sel))

/-- `trap_tss + i`. -/
def GdtSymbols.trapTask (l : GdtSymbols) (i : ℕ) : U32 := l.trapTss + BitVec.ofNat 32 (sizeofTss * i)

/-- `TRAP_TSS_BASE + 8 * i`. -/
def trapSelector (i : ℕ) : U16 := trapTssBase + BitVec.ofNat 16 (8 * i)

/-- The table; the registers that are loaded from it are left out. -/
def setupGdt (l : GdtSymbols) (m : Memory) : Memory :=
  let limit := BitVec.ofNat 32 (sizeofTss - 1)
  let m := memset m l.gdt 0#8 (8 * gdtEntries)
  let m := fillDescriptor m (l.gdt + 8 * (baseTss.toNat / 8)) l.tss limit (accPlK ||| accTss ||| accP) 0#32
  let m := fillDescriptor m (l.gdt + 8 * (kernelCs.toNat / 8)) 0#32 0xFFFFFFFF#32 (accPlK ||| accCodeR) sz32
  let m := fillDescriptor m (l.gdt + 8 * (kernelDs.toNat / 8)) 0#32 0xFFFFFFFF#32 (accPlK ||| accDataW) sz32
  let m := fillDescriptor m (l.gdt + 8 * (userCs.toNat / 8)) 0#32 0xFFFFFFFF#32 (accPlU ||| accCodeR) sz32
  let m := fillDescriptor m (l.gdt + 8 * (userDs.toNat / 8)) 0#32 0xFFFFFFFF#32 (accPlU ||| accDataW) sz32
  countedLoop handlerEntries (fun i m =>
    fillDescriptor m (l.gdt + 8 * (i + trapTssBase.toNat / 8)) (l.trapTask i) limit
      (accPlK ||| accTss ||| accP) 0#32) m

def tssSel2Tss (m : Memory) (gdt : ℕ) (sel : U16) : U32 :=
  let pdesc := gdtEntry gdt sel
  let p := load32 m (pdesc + 2) &&& 0xFFFFFF#32
  p + ((m (pdesc + 7)).setWidth 32 <<< 24)

/-- `tss_sel_2_tss(tss_sel_2_tss(tr)->back_link)` of `trap_handler`; `back_link` comes first in the segment. -/
def trappedTask (m : Memory) (gdt : ℕ) (tr : U16) : U32 :=
  tssSel2Tss m gdt ((load32 m (tssSel2Tss m gdt tr).toNat).setWidth 16)

/-- The bytes of the table that hold bases are the same; a task switch sets the busy bit in another. -/
def SameBases (gdt : ℕ) (m m' : Memory) : Prop :=
  ∀ i < gdtEntries, ∀ k ∈ [2, 3, 4, 7], m' (gdt + 8 * i + k) = m (gdt + 8 * i + k)

section
variable {m m' : Memory} {gdt entry : ℕ} {base limit access sizebits : U32} {sel : U16} {l : GdtSymbols}

/-- The bytes of a base, wherever the two loads find them. -/
theorem tssSel2Tss_bytes (m : Memory) (gdt : ℕ) (sel : U16) :
    let pdesc := gdtEntry gdt sel
    tssSel2Tss m gdt sel = m (pdesc + 7) ++ (m (pdesc + 4) ++ m (pdesc + 3) ++ m (pdesc + 2)) := by
  intro pdesc
  change (m (pdesc + 5) ++ m (pdesc + 4) ++ m (pdesc + 3) ++ m (pdesc + 2) &&& 0xFFFFFF#32) +
    ((m (pdesc + 7)).setWidth 32 <<< 24) = _
  generalize m (pdesc + 5) = b5
  generalize m (pdesc + 4) = b4
  generalize m (pdesc + 3) = b3
  generalize m (pdesc + 2) = b2
  generalize m (pdesc + 7) = b7
  have hdisjoint : (b5 ++ b4 ++ b3 ++ b2 &&& 0xFFFFFF#32) &&& (b7.setWidth 32 <<< 24) = 0#32 := by
    apply BitVec.eq_of_getLsbD_eq
    intro i hi
    simp only [BitVec.getLsbD_and, BitVec.getLsbD_append]
    interval_cases i <;> simp
  rw [BitVec.add_eq_or_of_and_eq_zero _ _ hdisjoint]
  apply BitVec.eq_of_getLsbD_eq
  intro i hi
  simp only [BitVec.getLsbD_or, BitVec.getLsbD_and, BitVec.getLsbD_append]
  interval_cases i <;> simp

/-- The fields of a descriptor, byte by byte. -/
theorem decode_load64 (m : Memory) (a : ℕ) : SegmentDescriptor.decode (load64 m a) =
    ⟨m (a + 7) ++ (m (a + 4) ++ m (a + 3) ++ m (a + 2)), (m (a + 6)).extractLsb' 0 4 ++ (m (a + 1) ++ m a), m (a + 5),
      (m (a + 6)).extractLsb' 4 4⟩ := by
  have hbyte : ∀ k < 8, m (a + k) = (load64 m a).extractLsb' (8 * k) 8 := fun k hk => apply_eq_load64 hk
  have h0 : m a = (load64 m a).extractLsb' 0 8 := hbyte 0 (by decide)
  rw [hbyte 1 (by decide), hbyte 2 (by decide), hbyte 3 (by decide), hbyte 4 (by decide), hbyte 5 (by decide),
    hbyte 6 (by decide), hbyte 7 (by decide), h0]
  generalize load64 m a = v
  refine SegmentDescriptor.ext ?_ ?_ rfl ?_
  all_goals
    apply BitVec.eq_of_getLsbD_eq
    intro i hi
    simp only [SegmentDescriptor.decode, BitVec.getLsbD_append, BitVec.getLsbD_extractLsb']
    interval_cases i <;> simp

/-- A store to the access byte of an entry. -/
theorem descriptorAt_store8 (m : Memory) (gdt : ℕ) (sel sel' : U16) (b : U8) :
    descriptorAt (store8 m (gdtEntry gdt sel + 5) b) gdt sel' =
      if sel >>> 3 = sel' >>> 3 then { descriptorAt m gdt sel' with access := b } else descriptorAt m gdt sel' := by
  by_cases h : sel >>> 3 = sel' >>> 3
  · rw [if_pos h, descriptorAt, descriptorAt, decode_load64, decode_load64, gdtEntry, gdtEntry, h]
    simp [store8]
  · have hne : (sel >>> 3).toNat ≠ (sel' >>> 3).toNat := fun he => h (BitVec.eq_of_toNat_eq he)
    rw [if_neg h, descriptorAt, descriptorAt, load64_congr]
    intro x hlo hhi
    unfold gdtEntry at hlo hhi ⊢
    exact Function.update_of_ne (by omega) _ _

theorem access_descriptorAt (m : Memory) (gdt : ℕ) (sel : U16) :
    (descriptorAt m gdt sel).access = m (gdtEntry gdt sel + 5) := by
  rw [descriptorAt, decode_load64]

/-- Bits are set in the access byte of an entry. -/
theorem descriptorAt_mark (m : Memory) (gdt : ℕ) (sel sel' : U16) (b : U8) :
    descriptorAt (store8 m (gdtEntry gdt sel + 5) (m (gdtEntry gdt sel + 5) ||| b)) gdt sel' =
      if sel >>> 3 = sel' >>> 3 then { descriptorAt m gdt sel' with access := (descriptorAt m gdt sel').access ||| b }
      else descriptorAt m gdt sel' := by
  rw [descriptorAt_store8]
  split
  · next h =>
    have hentry : gdtEntry gdt sel = gdtEntry gdt sel' := by rw [gdtEntry, gdtEntry, h]
    rw [access_descriptorAt, hentry]
  · rfl

/-- The decoder of `debugger.c` finds what the processor takes for the base. -/
theorem tssSel2Tss_eq (m : Memory) (gdt : ℕ) (sel : U16) :
    tssSel2Tss m gdt sel = (SegmentDescriptor.decode (load64 m (gdtEntry gdt sel))).base := by
  have hbyte : ∀ k < 8, m (gdtEntry gdt sel + k) = (load64 m (gdtEntry gdt sel)).extractLsb' (8 * k) 8 :=
    fun k hk => apply_eq_load64 hk
  have hlow : ∀ v : U64, v.extractLsb' 32 8 ++ v.extractLsb' 24 8 ++ v.extractLsb' 16 8 = v.extractLsb' 16 24 := by
    intro v
    have hmiddle : v.extractLsb' 32 8 ++ v.extractLsb' 24 8 = v.extractLsb' 24 16 :=
      BitVec.extractLsb'_append_extractLsb'_eq_extractLsb' rfl
    rw [hmiddle]
    exact BitVec.extractLsb'_append_extractLsb'_eq_extractLsb' rfl
  rw [tssSel2Tss_bytes, hbyte 2 (by decide), hbyte 3 (by decide), hbyte 4 (by decide), hbyte 7 (by decide)]
  exact congrArg (_ ++ ·) (hlow _)

/-- A selector names an entry of the table. -/
theorem sel_lt (sel : U16) : (sel >>> 3).toNat < gdtEntries := by
  rw [BitVec.toNat_ushiftRight, Nat.shiftRight_eq_div_pow, gdtEntries]
  omega

theorem tssSel2Tss_congr (h : SameBases gdt m m') (sel : U16) : tssSel2Tss m' gdt sel = tssSel2Tss m gdt sel := by
  have hbase := h _ (sel_lt sel)
  simp only [List.forall_mem_cons] at hbase
  obtain ⟨h2, h3, h4, h7, -⟩ := hbase
  rw [tssSel2Tss_bytes, tssSel2Tss_bytes]
  simp only [gdtEntry, h2, h3, h4, h7]

theorem segmentDescriptor_base (base limit access sizebits : U32) :
    (segmentDescriptor base limit access sizebits).base = base := by
  unfold segmentDescriptor
  split <;> rfl

theorem segmentDescriptor_access (base limit access sizebits : U32) :
    (segmentDescriptor base limit access sizebits).access = access.setWidth 8 ||| 0x80#8 := by
  have haccess : (access ||| accP).setWidth 8 = access.setWidth 8 ||| 0x80#8 := BitVec.setWidth_or
  unfold segmentDescriptor
  split <;> exact haccess

theorem segmentDescriptor_flags (base limit access sizebits : U32) :
    (segmentDescriptor base limit access sizebits).flags =
      if 0xFFFFF#32 < limit then sizebits.setWidth 4 ||| 0x8#4 else sizebits.setWidth 4 := by
  have hflags : (sizebits ||| szG).setWidth 4 = sizebits.setWidth 4 ||| 0x8#4 := BitVec.setWidth_or
  unfold segmentDescriptor
  split
  · exact hflags
  · rfl

theorem segmentDescriptor_limit (hsize : sizebits &&& szG = 0#32) :
    (segmentDescriptor base limit access sizebits).effectiveLimit =
      if limit ≤ 0xFFFFF#32 then limit else limit ||| 0xFFF#32 := by
  have hbit : sizebits[3] = false := by
    have h3 := congrArg (fun v => v.getLsbD 3) hsize
    simpa [szG] using h3
  unfold segmentDescriptor SegmentDescriptor.effectiveLimit
  by_cases hbig : 0xFFFFF#32 < limit
  · have hlarge : ¬limit ≤ 0xFFFFF#32 := BitVec.not_le.mpr hbig
    have hgranular : ((sizebits ||| szG).setWidth 4).getLsbD 3 = true := by
      simp [szG]
    rw [if_pos hbig, if_neg hlarge, if_pos hgranular]
    apply BitVec.eq_of_getLsbD_eq
    intro i hi
    simp only [BitVec.getLsbD_or, BitVec.getLsbD_shiftLeft, BitVec.getLsbD_setWidth, BitVec.getLsbD_ushiftRight]
    interval_cases i <;> simp
  · have hsmall : limit ≤ 0xFFFFF#32 := BitVec.not_lt.mp hbig
    have hbytes : ¬(sizebits.setWidth 4).getLsbD 3 = true := by
      simp [hbit]
    rw [if_neg hbig, if_pos hsmall, if_neg hbytes]
    apply BitVec.eq_of_toNat_eq
    have hle : limit.toNat ≤ 0xFFFFF := hsmall
    simp only [BitVec.toNat_setWidth]
    omega

/-- The two numbers that `fill_descriptor` is called with for a task. -/
def taskDescriptor (base : U32) : SegmentDescriptor :=
  segmentDescriptor base (BitVec.ofNat 32 (sizeofTss - 1)) (accPlK ||| accTss ||| accP) 0#32

/-- The descriptors of the tasks in the table. -/
theorem load64_setupGdt (l : GdtSymbols) (m : Memory) :
    load64 (setupGdt l m) (l.gdt + 8) = (taskDescriptor l.tss).encode ∧
      ∀ i < handlerEntries, load64 (setupGdt l m) (l.gdt + 80 + 8 * i) = (taskDescriptor (l.trapTask i)).encode := by
  have hloop : ∀ m₀, countedLoop handlerEntries (fun i m =>
      fillDescriptor m (l.gdt + 8 * (i + trapTssBase.toNat / 8)) (l.trapTask i) (BitVec.ofNat 32 (sizeofTss - 1))
        (accPlK ||| accTss ||| accP) 0#32) m₀ =
      storeDoubles m₀ (l.gdt + 80) handlerEntries (fun i => (taskDescriptor (l.trapTask i)).encode) := by
    intro m₀
    have hbody : (fun i m =>
        fillDescriptor m (l.gdt + 8 * (i + trapTssBase.toNat / 8)) (l.trapTask i) (BitVec.ofNat 32 (sizeofTss - 1))
          (accPlK ||| accTss ||| accP) 0#32) =
        fun i m => store64 m (l.gdt + 80 + 8 * i) (taskDescriptor (l.trapTask i)).encode := by
      funext i m
      have hentry : l.gdt + 8 * (i + trapTssBase.toNat / 8) = l.gdt + 80 + 8 * i := by
        have hbase : trapTssBase.toNat / 8 = 10 := rfl
        omega
      rw [fillDescriptor_eq, hentry]
      rfl
    rw [hbody]
    rfl
  unfold setupGdt
  simp only [hloop]
  constructor
  · rw [load64_congr (fun x _ _ => storeDoubles_of_outside _ (by omega))]
    simp only [fillDescriptor_eq]
    have hcs : kernelCs.toNat / 8 = 2 := rfl
    have hds : kernelDs.toNat / 8 = 3 := rfl
    have hucs : userCs.toNat / 8 = 8 := rfl
    have huds : userDs.toNat / 8 = 9 := rfl
    rw [load64_store64_of_disjoint _ (by omega), load64_store64_of_disjoint _ (by omega),
      load64_store64_of_disjoint _ (by omega), load64_store64_of_disjoint _ (by omega)]
    exact load64_store64_same _ _ _
  · intro i hi
    exact load64_storeDoubles _ hi

theorem tssSel2Tss_setupGdt (l : GdtSymbols) (m : Memory) :
    tssSel2Tss (setupGdt l m) l.gdt baseTss = l.tss ∧
      ∀ i < handlerEntries, tssSel2Tss (setupGdt l m) l.gdt (trapSelector i) = l.trapTask i := by
  obtain ⟨htss, htrap⟩ := load64_setupGdt l m
  constructor
  · have hentry : gdtEntry l.gdt baseTss = l.gdt + 8 := rfl
    rw [tssSel2Tss_eq, hentry, htss, SegmentDescriptor.decode_encode]
    exact segmentDescriptor_base _ _ _ _
  · intro i hi
    have hlt : i < 32 := hi
    have hentry : gdtEntry l.gdt (trapSelector i) = l.gdt + 80 + 8 * i := by
      have hsel : (trapSelector i).toNat = 80 + 8 * i := by
        rw [trapSelector, trapTssBase, BitVec.toNat_add, BitVec.toNat_ofNat, BitVec.toNat_ofNat]
        omega
      rw [gdtEntry, BitVec.toNat_ushiftRight, Nat.shiftRight_eq_div_pow, hsel]
      omega
    rw [tssSel2Tss_eq, hentry, htrap i hi, SegmentDescriptor.decode_encode]
    exact segmentDescriptor_base _ _ _ _

end

/-- What `fill_descriptor` has written is read back by the processor and by `tss_sel_2_tss`, and from
the table of `setup_gdt` the trap handler finds the task that trapped. -/
theorem descriptors_agree (m : Memory) (entry : ℕ) (base limit access sizebits : U32)
    (hsize : sizebits &&& szG = 0#32) :
    let v := load64 (fillDescriptor m entry base limit access sizebits) entry
    let d := SegmentDescriptor.decode v
    (d.base = base ∧ d.access = access.setWidth 8 ||| 0x80#8 ∧
      d.flags = (if 0xFFFFF#32 < limit then sizebits.setWidth 4 ||| 0x8#4 else sizebits.setWidth 4) ∧
      d.effectiveLimit = if limit ≤ 0xFFFFF#32 then limit else limit ||| 0xFFF#32) ∧
    (∀ m' gdt sel, load64 m' (gdtEntry gdt sel) = v → tssSel2Tss m' gdt sel = base) ∧
    ∀ l m', SameBases l.gdt (setupGdt l m) m' →
      tssSel2Tss m' l.gdt baseTss = l.tss ∧ ∀ i < handlerEntries, tssSel2Tss m' l.gdt (trapSelector i) = l.trapTask i ∧
        ((load32 m' (l.trapTask i).toNat).setWidth 16 = baseTss → trappedTask m' l.gdt (trapSelector i) = l.tss) := by
  intro v d
  have hv : v = (segmentDescriptor base limit access sizebits).encode := by
    simp only [v, fillDescriptor_eq, load64_store64_same]
  have hd : d = segmentDescriptor base limit access sizebits := by
    simp only [d, hv, SegmentDescriptor.decode_encode]
  refine ⟨?_, ?_, ?_⟩
  · rw [hd]
    exact ⟨segmentDescriptor_base _ _ _ _, segmentDescriptor_access _ _ _ _, segmentDescriptor_flags _ _ _ _,
      segmentDescriptor_limit hsize⟩
  · intro m' gdt sel hsel
    rw [tssSel2Tss_eq, hsel, hv, SegmentDescriptor.decode_encode]
    exact segmentDescriptor_base _ _ _ _
  · intro l m' hsame
    obtain ⟨htss, htrap⟩ := tssSel2Tss_setupGdt l m
    have hbase : tssSel2Tss m' l.gdt baseTss = l.tss := (tssSel2Tss_congr hsame _).trans htss
    refine ⟨hbase, ?_⟩
    intro i hi
    have htask : tssSel2Tss m' l.gdt (trapSelector i) = l.trapTask i := (tssSel2Tss_congr hsame _).trans (htrap i hi)
    refine ⟨htask, ?_⟩
    intro hlink
    rw [trappedTask, htask, hlink]
    exact hbase

/-- A task that traps while the handler of vector 0 has its selector in `back_link`. -/
theorem descriptors_agree_trap :
    let l : GdtSymbols := ⟨0x20000, 0x9000#32, 0xA000#32⟩
    let m := store32 (setupGdt l (fun _ => 0)) 0xA000 0x08#32
    tssSel2Tss (fillDescriptor (fun _ => 0) 8 0x9000#32 103#32 0x89#32 0#32) 0 baseTss = 0x9000#32 ∧
      trappedTask m l.gdt (trapSelector 0) = l.tss := by
  intro l m
  obtain ⟨-, hsel, hsetup⟩ := descriptors_agree (fun _ => 0) 8 0x9000#32 103#32 0x89#32 0#32 rfl
  have hsame : SameBases l.gdt (setupGdt l (fun _ => 0)) m := by
    intro i _ k _
    have hgdt : l.gdt = 0x20000 := rfl
    exact store32_of_outside _ (by omega)
  have hlink : (load32 m (l.trapTask 0).toNat).setWidth 16 = baseTss :=
    congrArg (BitVec.setWidth 16) (load32_store32_same (setupGdt l (fun _ => 0)) 0xA000 0x08#32)
  exact ⟨hsel _ 0 baseTss rfl, ((hsetup l m hsame).2 0 (by decide)).2 hlink⟩

end N7OS
