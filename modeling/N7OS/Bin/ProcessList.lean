import N7OS.Bin.ShellSession
import N7OS.Process.TableInvariant

/-! # The list of processes

`print_process_table` of `bin/demo.c`. The slots in use are the first ones, in the order in
which the processes have been created, so the list shows every process ever created.
-/
namespace N7OS.Demo
open User Execution ByteMemory

/-- The `default` of the `switch` is not reached. -/
def etatToStr : ProcessState → String
  | .libre => "LIBRE"
  | .pret => "PRET"
  | .elu => "ELU"
  | .bloque => "BLOQUE"

/-- The array `name`. -/
def nameBytes (p : Process) : List U8 := (List.range 32).map p.name

def printSlot (stack : ℕ → U8) (t : Slot → Process) (console : Console) (i : Slot) : Option Console :=
  if (t i).state ≠ .libre then
    printf stack console [.word (t i).pid, .string (nameBytes (t i)), .string (Shell.literal (etatToStr (t i).state))]
      (Shell.literal "  %d     %s\t  %s\n")
  else some console

def printProcessTable (stack : ℕ → U8) (t : Slot → Process) (console : Console) : Option Console :=
  (Shell.say stack console "  pid   nom              etat\n").bind fun console =>
    (List.finRange 16).foldlM (printSlot stack t) console

/-! ## The names -/

/-- The characters of a name that `create_process` keeps. -/
def cutName (name : ℕ → U8) : List U8 := ((List.range 31).map name).takeWhile (· ≠ 0#8)

/-- The names of the processes that a run creates. -/
def createdNames : List TableEvent → List (List U8)
  | [] => []
  | .schedule _ :: tr => createdNames tr
  | .create name _ result :: tr => if result = 0xFFFFFFFF#32 then createdNames tr else cutName name :: createdNames tr

def baseNames : List (List U8) := [ofString "idle", ofString "processus1", ofString "shell"]

def processLine (i : ℕ) (name : List U8) (state : String) : List U8 :=
  ofString "  " ++ decimalText i ++ ofString "     " ++ name ++ ofString "\t  " ++ ofString state ++ [newline]

/-- The line of one slot. -/
def slotLine (current : Slot) (i : ℕ) (name : List U8) : List U8 :=
  processLine i name (if i = current then "ELU" else "PRET")

def processLines (current : Slot) (names : List (List U8)) : List U8 :=
  names.zipIdx.flatMap fun (name, i) => slotLine current i name

/-- The names stand in the first slots, and the others are free. -/
structure Listed (names : List (List U8)) (k : Kernel) : Prop where
  length : names.length ≤ 16
  used : ∀ (i : Slot) (s : List U8), names[i.val]? = some s → (k.processTable i).state ≠ .libre ∧ 0#8 ∉ s ∧ s.length < 32 ∧
    ∃ rest, nameBytes (k.processTable i) = s ++ 0#8 :: rest
  free : ∀ i : Slot, names[i.val]? = none → (k.processTable i).state = .libre

section
variable {L : Layout} {k k' : Kernel} {names : List (List U8)} {name : ℕ → U8} {function : U32} {e : TableEvent}
  {tr tr' : List TableEvent} {m : Memory}

theorem copyName_of_lt {src : ℕ → U8} {n i j : ℕ} (hj : j < i) (dst : ℕ → U8) : copyName src n i dst j = dst j := by
  induction n generalizing i dst with
  | zero => exact Function.update_of_ne hj.ne _ _
  | succ n ih =>
    rw [copyName]
    split_ifs
    · rw [ih (hj.trans (Nat.lt_succ_self i)), Function.update_of_ne hj.ne]
    · exact Function.update_of_ne hj.ne _ _

theorem map_range_succ {α : Type*} (f : ℕ → α) (n : ℕ) :
    (List.range (n + 1)).map f = f 0 :: (List.range n).map fun j => f (j + 1) := by
  rw [List.range_succ_eq_map, List.map_cons, List.map_map]
  rfl

theorem copyName_nul {src : ℕ → U8} {i : ℕ} (h : src i = 0#8) (n : ℕ) (dst : ℕ → U8) :
    copyName src (n + 1) i dst = Function.update dst i 0#8 := if_neg (not_not.mpr h)

theorem copyName_char {src : ℕ → U8} {i : ℕ} (h : src i ≠ 0#8) (n : ℕ) (dst : ℕ → U8) :
    copyName src (n + 1) i dst = copyName src n (i + 1) (Function.update dst i (src i)) := if_pos h

/-- What the loop copies is the string up to its end, or up to `n` characters. -/
theorem copyName_text (src : ℕ → U8) (n i : ℕ) (dst : ℕ → U8) :
    ∃ rest, ((List.range (n + 1)).map fun j => copyName src n i dst (i + j)) =
      ((List.range n).map fun j => src (i + j)).takeWhile (· ≠ 0#8) ++ 0#8 :: rest := by
  induction n generalizing i dst with
  | zero => exact ⟨[], by simp [copyName]⟩
  | succ n ih =>
    rw [map_range_succ _ (n + 1), map_range_succ (fun j => src (i + j)), List.takeWhile_cons]
    simp only [Nat.add_zero]
    by_cases hnul : src i = 0#8
    · refine ⟨(List.range (n + 1)).map fun j => copyName src (n + 1) i dst (i + (j + 1)), ?_⟩
      rw [if_neg (by simpa using hnul), copyName_nul hnul, Function.update_self]
      rfl
    · obtain ⟨rest, hrest⟩ := ih (i + 1) (Function.update dst i (src i))
      have hkept : copyName src (n + 1) i dst i = src i := by
        rw [copyName_char hnul, copyName_of_lt (Nat.lt_succ_self i)]
        exact Function.update_self _ _ _
      have htail : ((List.range (n + 1)).map fun j => copyName src (n + 1) i dst (i + (j + 1))) =
          ((List.range n).map fun j => src (i + (j + 1))).takeWhile (· ≠ 0#8) ++ 0#8 :: rest := by
        rw [copyName_char hnul, List.map_congr_left fun j _ => congrArg _ (show i + (j + 1) = i + 1 + j by omega), hrest]
        rw [List.map_congr_left fun j _ => congrArg src (show i + (j + 1) = i + 1 + j by omega)]
      refine ⟨rest, ?_⟩
      rw [hkept, if_pos (by simpa using hnul), htail]
      rfl

theorem cutName_spec (name : ℕ → U8) : 0#8 ∉ cutName name ∧ (cutName name).length < 32 := by
  refine ⟨fun hmem => by simpa using List.mem_takeWhile_imp hmem, ?_⟩
  have hle := (List.takeWhile_sublist (fun c : U8 => decide (c ≠ 0#8)) (l := (List.range 31).map name)).length_le
  rw [List.length_map, List.length_range] at hle
  exact Nat.lt_succ_of_le hle

theorem nameBytes_fillSlot (L : Layout) (slot : Slot) (name : ℕ → U8) (function : U32) (k : Kernel) :
    ∃ rest, nameBytes ((fillSlot L slot name function k).processTable slot) = cutName name ++ 0#8 :: rest := by
  obtain ⟨rest, hrest⟩ := copyName_text name 31 0 (k.processTable slot).name
  refine ⟨rest, ?_⟩
  simp only [Nat.zero_add] at hrest
  simp only [cutName, ← hrest, nameBytes, fillSlot, Function.update_self]

/-! ## The slots in use -/

theorem listed_init (L : Layout) (m : Memory) : Listed [] (initProcess L (.boot m)) where
  length := Nat.zero_le 16
  used _ _ h := by cases h
  free i _ := (initSlots_slot _ _ i (.inl (List.mem_finRange i))).1

theorem Listed.fillSlot (h : Listed names k) (hroom : names.length < 16) (L : Layout) (name : ℕ → U8) (function : U32) :
    Listed (names ++ [cutName name]) (fillSlot L ⟨names.length, hroom⟩ name function k) := by
  have hother : ∀ i : Slot, i.val ≠ names.length →
      (N7OS.fillSlot L ⟨names.length, hroom⟩ name function k).processTable i = k.processTable i := fun i hi =>
    Function.update_of_ne (fun heq => hi (congrArg Fin.val heq)) _ _
  refine ⟨by simpa using hroom, ?_, ?_⟩
  · intro i s hs
    by_cases hi : i.val = names.length
    · obtain rfl : i = ⟨names.length, hroom⟩ := Fin.ext hi
      rw [List.getElem?_append_right le_rfl, Nat.sub_self] at hs
      cases hs
      exact ⟨by simp [N7OS.fillSlot], (cutName_spec name).1, (cutName_spec name).2, nameBytes_fillSlot L _ name function k⟩
    · have hlt : i.val < names.length := by
        obtain ⟨hbound, -⟩ := List.getElem?_eq_some_iff.mp hs
        rw [List.length_append, List.length_singleton] at hbound
        omega
      rw [List.getElem?_append_left hlt] at hs
      rw [hother i hi]
      exact h.used i s hs
  · intro i hnone
    rw [List.getElem?_eq_none_iff, List.length_append, List.length_singleton] at hnone
    rw [hother i (by omega)]
    exact h.free i (List.getElem?_eq_none (by omega))

/-- Neither the names nor the free slots change. -/
theorem Listed.keep (h : Listed names k) (hname : ∀ i, (k'.processTable i).name = (k.processTable i).name)
    (hstate : ∀ i, (k'.processTable i).state = .libre ↔ (k.processTable i).state = .libre) : Listed names k' where
  length := h.length
  used i s hs := by
    obtain ⟨hused, hzero, hlength, hbytes⟩ := h.used i s hs
    have hsame : nameBytes (k'.processTable i) = nameBytes (k.processTable i) := by rw [nameBytes, nameBytes, hname]
    exact ⟨mt (hstate i).mp hused, hzero, hlength, hsame ▸ hbytes⟩
  free i hnone := (hstate i).mpr (h.free i hnone)

theorem listed_kernelStart (L : Layout) (m : Memory) : Listed baseNames (kernelStart L m) := by
  have h0 := listed_init L m
  have h1 := h0.fillSlot (by decide) L (cString ['i', 'd', 'l', 'e']) L.idle
  have h2 := h1.fillSlot (by decide) L (cString ['p', 'r', 'o', 'c', 'e', 's', 's', 'u', 's', '1']) L.processus1
  have h3 := h2.fillSlot (by decide) L (cString ['s', 'h', 'e', 'l', 'l']) L.shell
  have hnames : [] ++ [cutName (cString ['i', 'd', 'l', 'e'])] ++
      [cutName (cString ['p', 'r', 'o', 'c', 'e', 's', 's', 'u', 's', '1'])] ++
        [cutName (cString ['s', 'h', 'e', 'l', 'l'])] = baseNames := by decide +kernel
  rw [hnames] at h3
  have hbase : Listed baseNames (createBase L (initProcess L (.boot m))).1 := by
    rw [createBase_eq]
    exact h3
  refine hbase.keep (fun i => setState_name 0 i .elu _) fun i => ?_
  change (setState 0 .elu _ i).state = .libre ↔ _
  rw [setState_state]
  split_ifs with hi
  · subst hi
    exact iff_of_false (by simp) (hbase.used 0 (ofString "idle") rfl).1
  · rfl

theorem createdNames_append (tr tr' : List TableEvent) : createdNames (tr ++ tr') = createdNames tr ++ createdNames tr' := by
  induction tr with
  | nil => rfl
  | cons e tr ih =>
    cases e with
    | schedule => exact ih
    | create name function result =>
      rw [List.cons_append, createdNames, createdNames, ih]
      split <;> rfl

theorem Listed.lowest (h : Listed names k) {slot : Slot} (hlibre : (k.processTable slot).state = .libre)
    (hmin : ∀ j < slot, (k.processTable j).state ≠ .libre) : slot.val = names.length := by
  apply Nat.le_antisymm
  · by_contra hlt
    have hroom : names.length < 16 := by omega
    exact hmin ⟨names.length, hroom⟩ (Nat.lt_of_not_le hlt) (h.free _ (List.getElem?_eq_none le_rfl))
  · by_contra hlt
    have hsome : names[slot.val]? = some (names.get ⟨slot.val, by omega⟩) := List.getElem?_eq_getElem (by omega)
    exact (h.used slot _ hsome).1 hlibre

theorem Listed.step (h : Listed names k) (hk : TableInv k) (hs : TableStep L k e k') :
    Listed (names ++ createdNames [e]) k' := by
  cases hs with
  | schedule =>
    rw [createdNames, createdNames, List.append_nil]
    rcases schedule_cases hk with ⟨-, hs⟩ | ⟨q, hq, -, hs⟩
    · rw [hs]
      exact h
    · rw [hs]
      refine h.keep (fun i => by simp) fun i => ?_
      simp only [setState_state]
      split_ifs with hi hi'
      · exact iff_of_false (by simp) (by rw [hi, hq]; simp)
      · exact iff_of_false (by simp) (by rw [hi', (hk.elu _).mpr rfl]; simp)
      · rfl
  | create name function =>
    rcases createProcess_cases L name function k with ⟨-, hc⟩ | ⟨slot, hlibre, hmin, hc⟩
    · rw [hc, createdNames, if_pos rfl, createdNames, List.append_nil]
      exact h
    · have hslot := h.lowest hlibre hmin
      rw [hc, createdNames, if_neg (pid_ne_fail slot), createdNames]
      have hroom : names.length < 16 := hslot ▸ slot.isLt
      obtain rfl : slot = ⟨names.length, hroom⟩ := Fin.ext hslot
      exact h.fillSlot hroom L name function

theorem listed_run (h : Runs (TableStep L) (kernelStart L m) tr k) : Listed (baseNames ++ createdNames tr) k := by
  have hnil : Listed (baseNames ++ createdNames []) (kernelStart L m) := by
    rw [createdNames, List.append_nil]
    exact listed_kernelStart L m
  refine (h.history_nil (fun past k => TableInv k ∧ Listed (baseNames ++ createdNames past) k) ?_
    ⟨tableInv_kernelStart L m, hnil⟩).2
  intro past s e t hinv hs
  rw [createdNames_append, ← List.append_assoc]
  exact ⟨tableInv_step hinv.1 hs, hinv.2.step hinv.1 hs⟩

/-! ## The report -/

theorem flatMap_range {α β : Type*} (f : ℕ → α → List β) (xs : List α) (n : ℕ) :
    ((List.range n).flatMap fun i => (xs[i]?).elim [] (f i)) = (xs.take n).zipIdx.flatMap fun (x, i) => f i x := by
  induction n with
  | zero => simp
  | succ n ih =>
    rw [List.range_succ, List.flatMap_append, ih, List.take_add_one, List.zipIdx_append, List.flatMap_append]
    cases hx : xs[n]? with
    | none => simp [hx]
    | some x =>
      obtain ⟨hlt, -⟩ := List.getElem?_eq_some_iff.mp hx
      simp [hx, List.length_take, Nat.min_eq_left hlt.le]

theorem etat_of_used (hk : TableInv k) {i : Slot} (hused : (k.processTable i).state ≠ .libre) :
    etatToStr (k.processTable i).state = if i.val = k.currentPid then "ELU" else "PRET" := by
  have hbloque := hk.bloque i
  by_cases hi : i = k.currentPid
  · rw [if_pos (congrArg Fin.val hi), (hk.elu i).mpr hi]
    rfl
  · have helu := mt (hk.elu i).mp hi
    rw [if_neg fun hval => hi (Fin.ext hval)]
    cases hs : (k.processTable i).state with
    | libre => exact absurd hs hused
    | pret => rfl
    | elu => exact absurd hs helu
    | bloque => exact absurd hs hbloque

/-- What `_doprnt` makes of a slot in use. -/
theorem doprnt_slot (h : Listed names k) (hk : TableInv k) {i : Slot} {s : List U8} (hs : names[i.val]? = some s) :
    Doprnt.doprnt 0#32 [.word (k.processTable i).pid, .string (nameBytes (k.processTable i)),
        .string (Shell.literal (etatToStr (k.processTable i).state))] (Shell.literal "  %d     %s\t  %s\n") =
      some (slotLine k.currentPid i s) := by
  obtain ⟨hused, hzero, hlength, rest, hbytes⟩ := h.used i s hs
  have hname : Doprnt.cstring (nameBytes (k.processTable i)) = some s := by
    rw [hbytes]
    exact cstring_string hzero (by omega) rest
  have hpid : (BitVec.ofNat 32 i.val).toInt = (i.val : ℤ) := toInt_ofNat_of_lt (by omega)
  rw [hk.pid, etat_of_used hk hused]
  generalize hstate : (if i.val = k.currentPid then "ELU" else "PRET") = state
  have hstring : Doprnt.cstring (Shell.literal state) = some (ofString state) := by
    subst hstate
    split_ifs <;> decide +kernel
  let pieces : List Piece := [.text (ofString "  ") (plain_ofList rfl), .decimal (BitVec.ofNat 32 i.val),
    .text (ofString "     ") (plain_ofList rfl), .string _ s hname, .text (ofString "\t  ") (plain_ofList rfl),
    .string _ (ofString state) hstring, .text [newline] (by decide)]
  have hformat : Shell.literal "  %d     %s\t  %s\n" = pieces.flatMap Piece.fmt ++ [0#8] := by
    simp only [pieces, List.flatMap_cons, List.flatMap_nil, Piece.fmt, Shell.literal]
    repeat rw [ofString_ofList]
    rfl
  rw [hformat]
  refine (doprnt_pieces pieces []).trans ?_
  simp [pieces, Piece.shown, hpid, slotLine, processLine, hstate]

theorem printSlot_eq (h : Listed names k) (hk : TableInv k) (stack : ℕ → U8) (i : Slot) (console : Console) :
    printSlot stack k.processTable console i =
      some (consolePutbytes console ((names[i.val]?).elim [] (slotLine k.currentPid i))) := by
  unfold printSlot
  cases hs : names[i.val]? with
  | none =>
    rw [if_neg (not_not.mpr (h.free i hs))]
    rfl
  | some s =>
    rw [if_pos (h.used i s hs).1]
    exact printf_eq (doprnt_slot h hk hs) stack console

/-- The lines of all slots, those not in use included. -/
theorem slotLines_eq (h : Listed names k) :
    ((List.finRange 16).flatMap fun i : Slot => (names[i.val]?).elim [] (slotLine k.currentPid i)) =
      processLines k.currentPid names := by
  have htake := flatMap_range (slotLine k.currentPid) names 16
  rw [List.take_of_length_le h.length, ← List.map_coe_finRange_eq_range, List.flatMap_map] at htake
  exact htake

theorem printProcessTable_eq (h : Listed names k) (hk : TableInv k) (stack : ℕ → U8) (console : Console) :
    printProcessTable stack k.processTable console =
      some (consolePutbytes console (ofString "  pid   nom              etat\n" ++ processLines k.currentPid names)) := by
  have hslots (console : Console) : (List.finRange 16).foldlM (printSlot stack k.processTable) console =
      some (consolePutbytes console ((List.finRange 16).flatMap fun i : Slot => (names[i.val]?).elim [] (slotLine k.currentPid i))) :=
    foldlM_putbytes (fun i _ console => printSlot_eq h hk stack i console) console
  have hhead := Shell.say_eq (s := "  pid   nom              etat\n") stack console (plain_ofList rfl)
  rw [printProcessTable, hhead, Option.bind_some, hslots, slotLines_eq h, consolePutbytes_append]

end

/-- After any calls of `schedule` and `create_process`, the list has a line for every process created,
in the order of their creation, with its name cut to 31 characters; the one that runs is marked. -/
theorem printProcessTable_runs {L : Layout} {m : Memory} {tr : List TableEvent} {k : Kernel}
    (h : Runs (TableStep L) (kernelStart L m) tr k) (stack : ℕ → U8) (console : Console) :
    printProcessTable stack k.processTable console =
      some (consolePutbytes console (ofString "  pid   nom              etat\n" ++
        processLines k.currentPid (baseNames ++ createdNames tr))) :=
  printProcessTable_eq (listed_run h) (tableInv_run h) stack console

/-- The list of `processus1`, once a process with a name of 40 characters has been created. -/
theorem printProcessTable_runs_long :
    let name : ℕ → U8 := fun i => if i < 40 then 0x78#8 else 0#8
    ∃ k, Runs (TableStep .sample) (kernelStart .sample fun _ => 0)
        [.schedule (some 1), .create name 0x100500#32 3#32] k ∧
      ∀ console, printProcessTable (fun _ => 0#8) k.processTable console = some (consolePutbytes console (ofString
        "  pid   nom              etat
  0     idle	  PRET
  1     processus1	  ELU
  2     shell	  PRET
  3     xxxxxxxxxxxxxxxxxxxxxxxxxxxxxxx	  PRET
")) := by
  intro name
  have hs := tableStep_schedule (k := kernelStart .sample fun _ => 0) (q := 1) .sample (by decide)
  generalize hk : (schedule (kernelStart .sample fun _ => 0)).1 = k at hs
  have hc := tableStep_create (k := k) (q := 3) .sample name 0x100500#32 (by subst hk; decide)
  have hrun := Runs.cons hs (.cons hc (.nil _))
  refine ⟨_, hrun, fun console => ?_⟩
  have hcur : (createProcess .sample name 0x100500#32 k).1.currentPid = 1 := by
    subst hk
    decide
  have hlist := printProcessTable_runs hrun (fun _ => 0#8) console
  rw [hcur] at hlist
  refine hlist.trans (congrArg (fun bytes => some (consolePutbytes console bytes)) ?_)
  decide +kernel

end N7OS.Demo
