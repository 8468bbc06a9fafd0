import Mathlib.Data.Nat.Fib.Basic
import N7OS.Bin.ProcessList
import N7OS.Bin.Processus1
import N7OS.Memory.PrintMem

/-! # The demonstration

`bin/demo.c`, as a program beside `processus1` that reads the characters `kgetch` will deliver.
-/
namespace N7OS.Demo
open User Interactive

/-- A user program on the console. -/
abbrev UserProgram := Program (Shared Console) U8

/-- What the demonstration finds: the arrays on the stacks, and the parts of the kernel that it shows. -/
structure Setting where
  stack : ℕ → U8
  p1Stack : ℕ → U8
  choice : List U8
  /-- What a local array of this length holds; the input ahead tells the calls apart. -/
  uninitialised : ℕ → List U8 → List U8
  kernel : Kernel
  bitmap : PageBitmap
  cr0 : U32
  cr3 : U32
  hchoice : choice.length = 16
  harrays : ∀ length input, (uninitialised length input).length = length

/-! ## Calls -/

/-- The console, and the `printf` of `processus1`. -/
def Setting.medium (t : Setting) : Medium Console where
  put := consolePutbytes
  putP1 := consolePutbytes
  p1Blocks console n := printfBlocks t.p1Stack console [.word n] (Shell.literal "P1 iter %d\n")

/-- A call of `printf`, with `processus1` before each of its system calls. -/
def print (t : Setting) (args : List Doprnt.VaArg) (fmt : String) : UserProgram PUnit := fun m input =>
  match printfBlocks t.stack m.display args (Shell.literal fmt) with
  | some blocks => writes t.medium blocks m input
  | none => .undefined

/-- Calls of `printf` one after the other, without arguments. -/
def say (t : Setting) : List String → UserProgram PUnit
  | [] => pure ⟨⟩
  | s :: ss => do
    print t [] s
    say t ss

def kgetch (t : Setting) : UserProgram U8 := key t.medium

/-- The body of the loop of `sys_read`, on the buffer and the count. -/
def readKey (a : List U8 × ℕ) (c : U8) : UserProgram ((List U8 × ℕ) × Bool) := fun m input =>
  match readBody ⟨a.1, a.2, m.display⟩ c with
  | some (r, last) => .done ((r.s, r.count), last) { m with display := r.console } input
  | none => .undefined

/-- What follows the loop. -/
def readEnd (a : List U8 × ℕ) : UserProgram (ℕ × List U8) := fun m input =>
  match finishRead ⟨a.1, a.2, m.display⟩ input with
  | .returned n r rest => .done (n, r.s) { m with display := r.console } rest
  | .blocked r => .waits { m with display := r.console }
  | .fault => .undefined

def readRound (t : Setting) (len : ℤ) (a : List U8 × ℕ) : UserProgram ((ℕ × List U8) ⊕ (List U8 × ℕ)) :=
  if (a.2 : ℤ) < len - 1 then do
    let c ← kgetch t
    let (a, last) ← readKey a c
    if last then Sum.inl <$> readEnd a else pure (.inr a)
  else Sum.inl <$> readEnd a

/-- `sys_read` with `processus1` before each key. -/
def read (t : Setting) (s : List U8) (len : ℤ) : UserProgram (ℕ × List U8) := .loop (readRound t len) (s, 0)

/-- What reads only the arrays of the program. -/
def reads {α : Type} (a : Option α) : UserProgram α := fun m input =>
  match a with
  | some a => .done a m input
  | none => .undefined

/-- The first byte of an array. -/
def first (array : List U8) : UserProgram U8 := reads array.head?

def localArray (t : Setting) (length : ℕ) : UserProgram (List U8) := fun m input =>
  .done (t.uninitialised length input) m input

/-! ## The steps -/

def fibonacci (n : ℤ) : ℤ := if n < 2 then n else fibonacci (n - 1) + fibonacci (n - 2)
termination_by n.toNat

def demoConsole (t : Setting) : UserProgram PUnit := do
  say t ["\n--- Etape 1 : Console ---\n", "Bienvenue sur n7OS !\n"]
  print t [.word (BitVec.ofInt 32 (fibonacci 5))] "Fibonacci(5) = %d\n"
  say t ["Avant\tApres tab\n", "Premiere version d'une ligne\rDeuxieme\n", "XYZ\x08\x08AB\n"]

/-- `handler_en_C`, behind the gate of vector 50. -/
def handlerEnC (t : Setting) : UserProgram PUnit := say t ["Interruption recue !\n"]

def demoInterrupt (t : Setting) : UserProgram PUnit := do
  say t ["\n--- Etape 2 : Interruption logicielle ---\n", "Avant l'interruption 50...\n"]
  handlerEnC t
  say t ["Apres l'interruption 50.\n"]

def sysExample : U32 := 1#32

def demoSyscall (t : Setting) : UserProgram PUnit := do
  say t ["\n--- Etape 3 : Appel systeme example ---\n"]
  let r := sysExample
  print t [.word r] "example() a retourne %d (attendu : 1)\n"
  if r = 1#32 then say t ["Appel systeme example OK\n"] else say t ["Appel systeme example ECHEC\n"]

def demoTimer (t : Setting) : UserProgram PUnit :=
  say t ["\n--- Etape 4 : Timer ---\n", "L'horloge en haut a droite est cadencee par le PIT a 1 kHz.\n",
    "Le handler de l'IRQ 0 incremente un compteur de ticks et\n",
    "rafraichit l'affichage en ecrivant directement en memoire video.\n",
    "Regardez en haut a droite : HH:MM:SS doit avancer en temps reel.\n"]

/-- The loop that waits for `q`. -/
def waitForQ (t : Setting) : UserProgram PUnit :=
  .loop (fun _ => do
    let c ← kgetch t
    pure (if c = 0x71#8 ∨ c = 0x51#8 then .inl ⟨⟩ else .inr ⟨⟩)) PUnit.unit

/-- A round of the loop of `print_process_table`. -/
def Setting.printSlot (t : Setting) (i : Slot) : UserProgram PUnit :=
  let p := t.kernel.processTable i
  if p.state ≠ .libre then
    print t [.word p.pid, .string (nameBytes p), .string (Shell.literal (etatToStr p.state))] "  %d     %s\t  %s\n"
  else pure ⟨⟩

def Setting.printProcessTable (t : Setting) : UserProgram PUnit := do
  say t ["  pid   nom              etat\n"]
  (List.finRange 16).forM t.printSlot

def demoProcess (t : Setting) : UserProgram PUnit := do
  say t ["\n--- Etape 5 : Processus et ordonnancement ---\n", "Table des processus :\n"]
  t.printProcessTable
  say t ["\nOrdonnancement : tourniquet (round-robin) sur la table,\n", "preemption toutes les 50 ms par l'IRQ 0 (timer).\n",
    "idle dort entre les tours, le shell execute cette demo.\n",
    "\nActivation de processus1. Tapez 'q' pour le stopper.\n\n"]
  assign t.medium fun p => { p with iter := 0#32 }
  assign t.medium fun p => { p with active := true }
  waitForQ t
  assign t.medium fun p => { p with active := false }
  say t ["\nProcessus1 mis en sommeil.\n", "Les iterations P1 ont progresse en parallele de cette\n",
    "demo : preuve visible de la preemption.\n"]

/-- One round of the loop of step 6. -/
def askCharacter (t : Setting) (i : U32) : UserProgram PUnit := do
  let buf ← localArray t 2
  print t [.word i] "Caractere %d > "
  let (_, buf) ← read t buf 2
  let c ← first buf
  print t [.word (c.setWidth 32), .word (c.signExtend 32)] "  ASCII = %d (caractere : %c)\n"

def demoKeyboard (t : Setting) : UserProgram PUnit := do
  say t ["\n--- Etape 6 : Clavier ---\n", "Tapez 3 caracteres (chacun suivi d'Entree).\n",
    "Pour chacun on affichera son code ASCII.\n"]
  askCharacter t 1#32
  askCharacter t 2#32
  askCharacter t 3#32

def demoRead (t : Setting) : UserProgram PUnit := do
  say t ["\n--- Etape 7 : Appel systeme read ---\n", "Tapez une phrase courte puis Entree :\n", "> "]
  let buf ← localArray t 64
  let (n, buf) ← read t buf 64
  print t [.word (BitVec.ofNat 32 n), .string buf] "Vous avez tape %d caracteres : \"%s\"\n"

def Setting.printMem (t : Setting) : UserProgram PUnit :=
  let used := countUsed t.bitmap
  print t [.word 4096#32, .word used, .word (4096#32 - used)] "Memoire physique : %d pages totales, %d utilisees, %d libres\n"

def demoPaging (t : Setting) : UserProgram PUnit := do
  say t ["\n--- Etape 8 : Pagination ---\n"]
  (if t.cr0 &&& 0x80000000#32 ≠ 0#32 then say t ["CR0.PG = 1 -> pagination active.\n"]
    else say t ["CR0.PG = 0 -> pagination inactive (anormal).\n"])
  print t [.word t.cr3] "CR3 (repertoire de pages) = 0x%x\n"
  t.printMem

/-! ## The menu -/

def printMenu (t : Setting) : UserProgram PUnit :=
  say t ["\n=== Demo des etapes du projet n7OS ===\n", "  1. Console (caracteres de controle)\n",
    "  2. Interruption logicielle (int 50)\n", "  3. Appel systeme example\n",
    "  4. Timer (deja visible en haut a droite)\n", "  5. Processus et ordonnancement\n", "  6. Clavier\n",
    "  7. Appel systeme read\n", "  8. Pagination\n", "  q. Quitter le mode demo\n"]

/-- The cases of the `switch` that stay in the loop. -/
def demoStep (t : Setting) (c : U8) : UserProgram PUnit :=
  if c = 0x31#8 then demoConsole t
  else if c = 0x32#8 then demoInterrupt t
  else if c = 0x33#8 then demoSyscall t
  else if c = 0x34#8 then demoTimer t
  else if c = 0x35#8 then demoProcess t
  else if c = 0x36#8 then demoKeyboard t
  else if c = 0x37#8 then demoRead t
  else if c = 0x38#8 then demoPaging t
  else print t [.word (c.signExtend 32)] "Choix invalide : %c\n"

def demoRound (t : Setting) (choice : List U8) : UserProgram (PUnit ⊕ List U8) := do
  printMenu t
  say t ["Choix > "]
  let (n, choice) ← read t choice 16
  if n = 0 then pure (.inr choice)
  else
    let c ← first choice
    if c = 0x71#8 ∨ c = 0x51#8 then
      say t ["Sortie du mode demo.\n"]
      pure (.inl ⟨⟩)
    else
      demoStep t c
      pure (.inr choice)

/-- `while (1)`. -/
def demo (t : Setting) : UserProgram PUnit := .loop (demoRound t) t.choice

/-! ## The shell -/

def cmdHelp (t : Setting) : UserProgram PUnit :=
  say t ["Commandes disponibles :\n", "  help     liste des commandes\n", "  clear    efface l'ecran\n",
    "  time     etat du systeme\n", "  echo X   reaffiche X\n", "  demo     menu de demonstration des etapes\n"]

def cmdClear (t : Setting) : UserProgram PUnit := print t [] "\x0c"

def cmdTime (t : Setting) : UserProgram PUnit := print t [] "Voir l'horloge en haut a droite (HH:MM:SS).\n"

def cmdEcho (t : Setting) (arg : List U8) : UserProgram PUnit := print t [.string arg] "%s\n"

def startsWith (line : List U8) (word : String) : UserProgram Bool := reads (Shell.strStartsWith line (Shell.literal word))

/-- The chain of tests on the line. -/
def command (t : Setting) (line : List U8) : UserProgram PUnit := do
  let help ← startsWith line "help"
  if help then cmdHelp t
  else
    let clear ← startsWith line "clear"
    if clear then cmdClear t
    else
      let time ← startsWith line "time"
      if time then cmdTime t
      else
        let isDemo ← startsWith line "demo"
        if isDemo then demo t
        else
          let echo ← startsWith line "echo"
          if echo then
            let arg ← reads (Shell.echoArgument line)
            cmdEcho t arg
          else
            print t [.string line] "Commande inconnue : %s\n"
            say t ["Tapez 'help' pour la liste.\n"]

def shellRound (t : Setting) (line : List U8) : UserProgram (PEmpty ⊕ List U8) := do
  say t ["n7OS> "]
  let (n, line) ← read t line Shell.lineMax
  if n = 0 then pure (.inr line)
  else
    command t line
    pure (.inr line)

/-- The whole program; it never returns. -/
def shell (t : Setting) (line : List U8) : UserProgram PEmpty := do
  say t ["Bienvenue dans n7sh. Tapez 'help' pour la liste des commandes.\n"]
  .loop (shellRound t) line

/-! ## Without the other process -/

section
variable {t : Setting} {m : Shared Console} {a : List U8 × ℕ} {len : ℤ}

def altered (m : Shared Console) (input : List U8) : Option Console → Outcome (Shared Console) U8 PUnit
  | some console => .done ⟨⟩ { m with display := console } input
  | none => .undefined

/-- If `processus1` has no steps, the program does this to the console and nothing else. -/
def Alters (p : UserProgram PUnit) (f : Console → Option Console) : Prop :=
  ∀ m input, m.turns = [] → p m input = altered m input (f m.display)

theorem alters_pure : Alters (pure ⟨⟩) some := fun _ _ _ => rfl

theorem Alters.bind {p q : UserProgram PUnit} {f g : Console → Option Console} (hp : Alters p f) (hq : Alters q g) :
    Alters (do p; q) (fun console => (f console).bind g) := by
  intro m input hturns
  rw [Program.bind_eq, Program.bind, hp m input hturns]
  dsimp only
  cases f m.display with
  | none => rfl
  | some console => exact hq _ input hturns

theorem Alters.forM {α : Type} {p : α → UserProgram PUnit} {f : Console → α → Option Console}
    (h : ∀ a, Alters (p a) (f · a)) (xs : List α) : Alters (xs.forM p) (fun console => xs.foldlM f console) := by
  induction xs with
  | nil => exact alters_pure
  | cons a xs ih => exact (h a).bind ih

theorem writes_alone (blocks : List (List U8)) (hturns : m.turns = []) (input : List U8) :
    writes t.medium blocks m input = .done ⟨⟩ { m with display := consolePutbytes m.display blocks.flatten } input := by
  induction blocks generalizing m with
  | nil => rfl
  | cons block blocks ih =>
    rw [writes, Program.bind_eq, Program.bind, pause_alone t.medium hturns, List.flatten_cons, consolePutbytes_append]
    exact ih (m := { m with display := consolePutbytes m.display block }) hturns

/-- `print` is the `printf` of the library. -/
theorem print_alters (t : Setting) (args : List Doprnt.VaArg) (fmt : String) :
    Alters (print t args fmt) (fun console => printf t.stack console args (Shell.literal fmt)) := by
  intro m input hturns
  unfold print
  dsimp only
  cases hout : Doprnt.doprnt 0#32 args (Shell.literal fmt) with
  | none => rw [printf, printfBlocks, hout, Option.map_none, Option.map_none, altered]
  | some out =>
    rw [printfBlocks_eq hout, printf_eq hout, altered]
    exact (writes_alone (written out) hturns input).trans (by rw [flatten_written])

theorem say_alters (t : Setting) (ss : List String) :
    Alters (say t ss) (fun console => ss.foldlM (Shell.say t.stack) console) := by
  induction ss with
  | nil => exact alters_pure
  | cons s ss ih => exact (print_alters t [] s).bind ih

theorem printTable_alters (t : Setting) : Alters t.printProcessTable (Demo.printProcessTable t.stack t.kernel.processTable) := by
  have hhead : Alters (say t ["  pid   nom              etat\n"]) (Shell.say t.stack · "  pid   nom              etat\n") := by
    simpa using say_alters t ["  pid   nom              etat\n"]
  refine hhead.bind (.forM (fun i => ?_) _)
  unfold Setting.printSlot Demo.printSlot
  dsimp only
  split_ifs
  · exact print_alters t _ _
  · exact alters_pure

theorem printMem_alters (t : Setting) : Alters t.printMem (N7OS.printMem t.stack · t.bitmap) := print_alters t _ _

/-- What `sys_read` ends with. -/
def readOutcome (m : Shared Console) : ReadResult → Outcome (Shared Console) U8 (ℕ × List U8)
  | .returned n r rest => .done (n, r.s) { m with display := r.console } rest
  | .blocked r => .waits { m with display := r.console }
  | .fault => .undefined

theorem readEnd_eq (a : List U8 × ℕ) (m : Shared Console) (input : List U8) :
    readEnd a m input = readOutcome m (finishRead ⟨a.1, a.2, m.display⟩ input) := by
  unfold readEnd readOutcome
  rfl

theorem kgetch_alone (t : Setting) (hturns : m.turns = []) (input : List U8) : kgetch t m input = Program.next m input := by
  rw [kgetch, key, Program.bind_eq, Program.bind, pause_alone t.medium hturns]

theorem readRound_full (t : Setting) (h : ¬(a.2 : ℤ) < len - 1) (m : Shared Console) (input : List U8) :
    readRound t len a m input = (Sum.inl <$> readEnd a) m input := by
  rw [readRound, if_neg h]

theorem readRound_key (t : Setting) (hturns : m.turns = []) (h : (a.2 : ℤ) < len - 1) (c : U8) (input : List U8) :
    readRound t len a m (c :: input) = match readBody ⟨a.1, a.2, m.display⟩ c with
      | some (r, true) => (Sum.inl <$> readEnd (r.s, r.count)) { m with display := r.console } input
      | some (r, false) => .done (.inr (r.s, r.count)) { m with display := r.console } input
      | none => .undefined := by
  rw [readRound, if_pos h, Program.bind_eq, Program.bind, kgetch_alone t hturns]
  change Program.bind (readKey a c) _ m input = _
  rw [Program.bind, readKey]
  rcases readBody ⟨a.1, a.2, m.display⟩ c with _ | ⟨r, _ | _⟩ <;> rfl

/-- If `processus1` has no steps, `read` is `sys_read`. -/
theorem read_alone (t : Setting) (hturns : m.turns = []) (a : List U8 × ℕ) (input : List U8) :
    Program.loop (readRound t len) a m input = readOutcome m (sysReadLoop len ⟨a.1, a.2, m.display⟩ input) := by
  induction input generalizing a m with
  | nil =>
    by_cases hlt : (a.2 : ℤ) < len - 1
    · rw [sysReadLoop_wait hlt, Program.loop, readRound, if_pos hlt, Program.bind_eq, Program.bind, kgetch_alone t hturns]
      rfl
    · rw [Program.loop_map_inl (readRound_full t hlt m []), readEnd_eq, sysReadLoop_full hlt]
  | cons c input ih =>
    by_cases hlt : (a.2 : ℤ) < len - 1
    · have hround := readRound_key t hturns hlt c input
      cases hbody : readBody ⟨a.1, a.2, m.display⟩ c with
      | none =>
        rw [hbody] at hround
        rw [Program.loop, hround, sysReadLoop, if_pos hlt, hbody]
        rfl
      | some result =>
        obtain ⟨r, last⟩ := result
        rw [hbody] at hround
        cases last with
        | true =>
          rw [Program.loop_map_inl hround, readEnd_eq, sysReadLoop_break hlt hbody]
          rfl
        | false =>
          have hrest := ih (m := { m with display := r.console }) hturns (r.s, r.count)
          rw [Program.loop_again hround (Nat.lt_succ_self _), hrest, sysReadLoop_again hlt hbody]
          rfl
    · rw [Program.loop_map_inl (readRound_full t hlt m _), readEnd_eq, sysReadLoop_full hlt]

/-- What follows the tests of the shell on a line. -/
def dispatched (t : Setting) (m : Shared Console) (input : List U8) : Option Shell.Dispatched → Outcome (Shared Console) U8 PUnit
  | some .demo => demo t m input
  | some (.done console) => altered m input (some console)
  | none => .undefined

theorem Alters.dispatched {p : UserProgram PUnit} {f : Console → Option Console} (h : Alters p f) (hturns : m.turns = [])
    (input : List U8) : p m input = dispatched t m input ((f m.display).map .done) := by
  rw [h m input hturns]
  cases f m.display <;> rfl

theorem reads_bind {α : Type} (a : Option α) (f : α → UserProgram PUnit) (m : Shared Console) (input : List U8) :
    (reads a >>= f) m input = match a with
      | some a => f a m input
      | none => .undefined := by
  rw [Program.bind_eq, Program.bind]
  cases a <;> rfl

/-- One test of the chain. -/
theorem test_alone (test : Option Bool) {p q : UserProgram PUnit} {x y : Option Shell.Dispatched} {input : List U8}
    (hp : p m input = dispatched t m input x) (hq : q m input = dispatched t m input y) :
    (do let b ← reads test; if b then p else q) m input = dispatched t m input (test.bind fun b => if b then x else y) := by
  rw [reads_bind]
  rcases test with _ | _ | _
  · rfl
  · exact hq
  · exact hp

/-- The tests on the line are those of the shell that is not interrupted. -/
theorem command_alone (line : List U8) (hturns : m.turns = []) (input : List U8) :
    command t line m input = dispatched t m input (Shell.dispatch t.stack ⟨line, m.display⟩) := by
  have hecho : (do let arg ← reads (Shell.echoArgument line); cmdEcho t arg : UserProgram PUnit) m input =
      dispatched t m input ((Shell.echoArgument line).bind fun arg => (Shell.cmdEcho t.stack m.display arg).map .done) := by
    rw [reads_bind]
    cases Shell.echoArgument line with
    | none => rfl
    | some arg => exact (print_alters t _ _).dispatched hturns input
  have hunknown : Alters (do print t [.string line] "Commande inconnue : %s\n"; say t ["Tapez 'help' pour la liste.\n"])
      fun console => (printf t.stack console [.string line] (Shell.literal "Commande inconnue : %s\n")).bind fun console =>
        Shell.say t.stack console "Tapez 'help' pour la liste.\n" :=
    (print_alters t _ _).bind (by simpa using say_alters t ["Tapez 'help' pour la liste.\n"])
  have hlast := hunknown.dispatched (t := t) hturns input
  rw [Option.map_bind] at hlast
  refine test_alone _ ((say_alters t _).dispatched hturns input) ?_
  refine test_alone _ ((print_alters t _ _).dispatched hturns input) ?_
  refine test_alone _ ((print_alters t _ _).dispatched hturns input) ?_
  refine test_alone _ rfl ?_
  exact test_alone _ hecho hlast

end

end N7OS.Demo
