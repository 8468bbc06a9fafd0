import N7OS.Bin.Demo

/-! # The session

The shell and the demonstration as their user sees them: a program that asks for lines and shows
texts that depend on them, block after block. It is the same program wherever it shows them and
whatever becomes there of the blocks of `processus1`.
-/
namespace N7OS.Demo
open User Interactive LineEditor

/-- A program on a medium, beside `processus1`. -/
abbrev Session (κ : Type) := Program (Shared κ) U8

/-- What is shown of the kernel. -/
structure View where
  names : List (List U8)
  current : Slot
  used : ℕ
  paging : Bool
  directory : U32

/-! ## Texts -/

def lines (ss : List String) : List (List U8) := ss.map ofString

def consoleTexts : List (List U8) :=
  lines ["\n--- Etape 1 : Console ---\n", "Bienvenue sur n7OS !\n"] ++
    ([ofString "Fibonacci(5) = " ++ (decimalText 5 ++ [newline])] ++
      lines ["Avant\tApres tab\n", "Premiere version d'une ligne\rDeuxieme\n", "XYZ\x08\x08AB\n"])

def interruptTexts : List (List U8) :=
  lines ["\n--- Etape 2 : Interruption logicielle ---\n", "Avant l'interruption 50...\n"] ++
    (lines ["Interruption recue !\n"] ++ lines ["Apres l'interruption 50.\n"])

def syscallTexts : List (List U8) :=
  lines ["\n--- Etape 3 : Appel systeme example ---\n"] ++
    ([ofString "example() a retourne " ++ (decimalText 1 ++ ofString " (attendu : 1)\n")] ++ lines ["Appel systeme example OK\n"])

def timerTexts : List (List U8) :=
  lines ["\n--- Etape 4 : Timer ---\n", "L'horloge en haut a droite est cadencee par le PIT a 1 kHz.\n",
    "Le handler de l'IRQ 0 incremente un compteur de ticks et\n",
    "rafraichit l'affichage en ecrivant directement en memoire video.\n",
    "Regardez en haut a droite : HH:MM:SS doit avancer en temps reel.\n"]

/-- The process list comes as one text. -/
def processTexts (v : View) : List (List U8) :=
  lines ["\n--- Etape 5 : Processus et ordonnancement ---\n", "Table des processus :\n"] ++
    ([ofString "  pid   nom              etat\n" ++ processLines v.current v.names] ++
      lines ["\nOrdonnancement : tourniquet (round-robin) sur la table,\n", "preemption toutes les 50 ms par l'IRQ 0 (timer).\n",
        "idle dort entre les tours, le shell execute cette demo.\n",
        "\nActivation de processus1. Tapez 'q' pour le stopper.\n\n"])

def processEndTexts : List (List U8) :=
  lines ["\nProcessus1 mis en sommeil.\n", "Les iterations P1 ont progresse en parallele de cette\n",
    "demo : preuve visible de la preemption.\n"]

def keyboardTexts : List (List U8) :=
  lines ["\n--- Etape 6 : Clavier ---\n", "Tapez 3 caracteres (chacun suivi d'Entree).\n",
    "Pour chacun on affichera son code ASCII.\n"]

def askText (i : ℕ) : List U8 := ofString "Caractere " ++ decimalText i ++ ofString " > "

def asciiText (c : U8) : List U8 :=
  ofString "  ASCII = " ++ decimalText c.toNat ++ ofString " (caractere : " ++ [c] ++ ofString ")\n"

def readTexts : List (List U8) :=
  lines ["\n--- Etape 7 : Appel systeme read ---\n", "Tapez une phrase courte puis Entree :\n", "> "]

def lineText (line : List U8) : List U8 :=
  ofString "Vous avez tape " ++ decimalText line.length ++ ofString " caracteres : \"" ++ Shell.text line ++ ofString "\"\n"

def cr0Text (paging : Bool) : String :=
  if paging then "CR0.PG = 1 -> pagination active.\n" else "CR0.PG = 0 -> pagination inactive (anormal).\n"

def cr3Text (directory : U32) : List U8 :=
  ofString "CR3 (repertoire de pages) = 0x" ++ Doprnt.numeralText 16 directory.toNat ++ [newline]

def pagingTexts (v : View) : List (List U8) :=
  lines ["\n--- Etape 8 : Pagination ---\n"] ++ (lines [cr0Text v.paging] ++ ([cr3Text v.directory] ++ [memReport v.used]))

def menuTexts : List (List U8) :=
  lines ["\n=== Demo des etapes du projet n7OS ===\n", "  1. Console (caracteres de controle)\n",
    "  2. Interruption logicielle (int 50)\n", "  3. Appel systeme example\n",
    "  4. Timer (deja visible en haut a droite)\n", "  5. Processus et ordonnancement\n", "  6. Clavier\n",
    "  7. Appel systeme read\n", "  8. Pagination\n", "  q. Quitter le mode demo\n"] ++ lines ["Choix > "]

def invalidText (c : U8) : List U8 := ofString "Choix invalide : " ++ [c, newline]

def p1Text (n : U32) : List U8 := ofString "P1 iter " ++ decimalText n.toInt ++ [newline]

/-! ## The programs -/

section
variable {κ : Type} (M : Medium κ)

/-- Texts one after the other. -/
def puts (outs : List (List U8)) : Session κ PUnit := writes M (outs.flatMap written)

def lineRound (n : ℕ) (line : List U8) : Session κ (List U8 ⊕ List U8) :=
  if line.length < n then do
    let c ← key M
    put M (echo line c)
    pure (if lineKeys.isEnter c then .inl line else .inr (edit lineKeys line c))
  else pure (.inl line)

/-- A line of at most `n` characters, with its echo. -/
def readLine (n : ℕ) : Session κ (List U8) := .loop (lineRound M n) []

def awaitQ : Session κ PUnit :=
  .loop (fun _ => do
    let c ← key M
    pure (if c = 0x71#8 ∨ c = 0x51#8 then .inl ⟨⟩ else .inr ⟨⟩)) PUnit.unit

/-- `processus1` is on while a `q` is awaited. -/
def processSession (v : View) : Session κ PUnit := do
  puts M (processTexts v)
  assign M fun p => { p with iter := 0#32 }
  assign M fun p => { p with active := true }
  awaitQ M
  assign M fun p => { p with active := false }
  puts M processEndTexts

/-- An enter alone counts as the character 0. -/
def askSession (i : ℕ) : Session κ PUnit := do
  puts M [askText i]
  let line ← readLine M 1
  puts M [asciiText (line.headD 0#8)]

def keyboardSession : Session κ PUnit := do
  puts M keyboardTexts
  askSession M 1
  askSession M 2
  askSession M 3

def readSession : Session κ PUnit := do
  puts M readTexts
  let line ← readLine M 63
  puts M [lineText line]

/-- What a choice leads to. -/
def chosen (v : View) (c : U8) : Session κ PUnit :=
  if c = 0x31#8 then puts M consoleTexts
  else if c = 0x32#8 then puts M interruptTexts
  else if c = 0x33#8 then puts M syscallTexts
  else if c = 0x34#8 then puts M timerTexts
  else if c = 0x35#8 then processSession M v
  else if c = 0x36#8 then keyboardSession M
  else if c = 0x37#8 then readSession M
  else if c = 0x38#8 then puts M (pagingTexts v)
  else puts M [invalidText c]

def menuRound (v : View) : Session κ (PUnit ⊕ PUnit) := do
  puts M menuTexts
  let line ← readLine M 15
  match line with
  | [] => pure (.inr ⟨⟩)
  | c :: _ =>
    if c = 0x71#8 ∨ c = 0x51#8 then
      puts M (lines ["Sortie du mode demo.\n"])
      pure (.inl ⟨⟩)
    else
      chosen M v c
      pure (.inr ⟨⟩)

def menuSession (v : View) : Session κ PUnit := .loop (fun _ => menuRound M v) PUnit.unit

/-- What the shell answers to a line, or the demonstration. -/
def answerSession (v : View) (line : List U8) : Session κ PUnit :=
  match Shell.answer (Shell.text line) with
  | some out => puts M [out]
  | none => menuSession M v

def sessionRound (v : View) : Session κ (PEmpty ⊕ PUnit) := do
  puts M [Shell.prompt]
  let line ← readLine M 63
  (if line = [] then pure ⟨⟩ else answerSession M v line)
  pure (.inr ⟨⟩)

def session (v : View) : Session κ PEmpty := do
  puts M [Shell.banner]
  .loop (fun _ => sessionRound M v) PUnit.unit

end

/-! ## What is read -/

section
variable {κ : Type} {M : Medium κ} {n : ℕ}

theorem puts_append (outs outs' : List (List U8)) : (do puts M outs; puts M outs') = puts M (outs ++ outs') := by
  rw [puts, puts, writes_append, ← List.flatMap_append, puts]

theorem puts_reads (outs : List (List U8)) : Program.Reads 0 (puts M outs) := writes_reads _

theorem lineRound_reads (line : List U8) (h : line.length < n) : Program.Reads 1 (lineRound M n line) := by
  rw [lineRound, if_pos h]
  exact key_reads.bind fun _ => (put_reads _).bind fun _ => Program.Reads.pure _

theorem lineRound_rounds (n : ℕ) : Program.Rounds (lineRound M n) := by
  intro line s input line' s' rest hdone
  by_cases h : line.length < n
  · have hread := lineRound_reads line h s input _ s' rest hdone
    omega
  · rw [lineRound, if_neg h] at hdone
    cases hdone

theorem readLine_reads (hn : 0 < n) : Program.Reads 1 (readLine M n) := by
  refine Program.Reads.loop (fun line => ?_) (lineRound_reads [] hn)
  by_cases h : line.length < n
  · exact (lineRound_reads line h).mono (Nat.zero_le 1)
  · rw [lineRound, if_neg h]
    exact Program.Reads.pure _

theorem awaitQ_round_reads : Program.Reads 1 (do
    let c ← key M
    pure (if c = 0x71#8 ∨ c = 0x51#8 then .inl ⟨⟩ else .inr ⟨⟩) : Session κ (PUnit ⊕ PUnit)) :=
  key_reads.bind fun _ => Program.Reads.pure _

theorem askSession_reads (i : ℕ) : Program.Reads 0 (askSession M i) :=
  ((puts_reads _).bind fun _ => (readLine_reads (by decide)).bind fun _ => puts_reads _).mono (Nat.zero_le _)

theorem chosen_reads (v : View) (c : U8) : Program.Reads 0 (chosen M v c) := by
  have hawait : Program.Reads 0 (awaitQ M) :=
    Program.Reads.loop (fun _ => awaitQ_round_reads.mono (Nat.zero_le 1)) (awaitQ_round_reads.mono (Nat.zero_le 1))
  have hprocess : Program.Reads 0 (processSession M v) :=
    (puts_reads _).bind fun _ => (assign_reads _).bind fun _ => (assign_reads _).bind fun _ => hawait.bind fun _ =>
      (assign_reads _).bind fun _ => puts_reads _
  have hkeyboard : Program.Reads 0 (keyboardSession M) :=
    (puts_reads _).bind fun _ => (askSession_reads 1).bind fun _ => (askSession_reads 2).bind fun _ => askSession_reads 3
  have hread : Program.Reads 0 (readSession M) :=
    ((puts_reads _).bind fun _ => (readLine_reads (by decide)).bind fun _ => puts_reads _).mono (Nat.zero_le _)
  exact .ite (fun _ => puts_reads _) fun _ => .ite (fun _ => puts_reads _) fun _ => .ite (fun _ => puts_reads _) fun _ =>
    .ite (fun _ => puts_reads _) fun _ => .ite (fun _ => hprocess) fun _ => .ite (fun _ => hkeyboard) fun _ =>
    .ite (fun _ => hread) fun _ => .ite (fun _ => puts_reads _) fun _ => puts_reads _

theorem menuRound_reads (v : View) : Program.Reads 1 (menuRound M v) := by
  refine ((puts_reads _).bind fun _ => (readLine_reads (n := 15) (by decide)).bind (m := 0) fun line => ?_).mono (by decide)
  cases line with
  | nil => exact Program.Reads.pure _
  | cons c line =>
    exact .ite (fun _ => (puts_reads _).bind fun _ => Program.Reads.pure _) fun _ =>
      (chosen_reads v c).bind fun _ => Program.Reads.pure _

theorem answerSession_reads (v : View) (line : List U8) : Program.Reads 0 (answerSession M v line) := by
  have hmenu : Program.Reads 0 (menuSession M v) :=
    Program.Reads.loop (fun _ => (menuRound_reads v).mono (Nat.zero_le 1)) ((menuRound_reads v).mono (Nat.zero_le 1))
  unfold answerSession
  split
  · exact puts_reads _
  · exact hmenu

theorem sessionRound_reads (v : View) : Program.Reads 1 (sessionRound M v) := by
  refine ((puts_reads _).bind fun _ => (readLine_reads (n := 63) (by decide)).bind (m := 0) fun line => ?_).mono (by decide)
  exact (Program.Reads.ite (fun _ => Program.Reads.pure _) fun _ => answerSession_reads v line).bind fun _ => Program.Reads.pure _

end

/-! ## On two media -/

section
variable {κ κ' : Type} {M : Medium κ} {M' : Medium κ'} {D : Shared κ → Shared κ' → Prop} (hlink : Link M M' D)
include hlink

theorem puts_link (outs : List (List U8)) : Program.Simulates D Eq (puts M outs) (puts M' outs) :=
  writes_simulates hlink _

theorem readLine_link (n : ℕ) : Program.Simulates D Eq (readLine M n) (readLine M' n) := by
  refine Program.Simulates.loop (R := Eq) ?_ (lineRound_rounds n) rfl
  rintro line _ rfl
  refine .ite .rfl (fun _ => ?_) fun _ => .pure (.inl rfl)
  refine (key_simulates hlink).bind ?_
  rintro c _ rfl
  refine (put_simulates hlink _).bind fun _ _ _ => .pure ?_
  split_ifs
  · exact .inl rfl
  · exact .inr rfl

theorem awaitQ_link : Program.Simulates D Eq (awaitQ M) (awaitQ M') := by
  refine Program.Simulates.loop (R := Eq) ?_ (.of_reads fun _ => awaitQ_round_reads) rfl
  rintro _ _ -
  refine (key_simulates hlink).bind ?_
  rintro c _ rfl
  refine .pure ?_
  split_ifs
  · exact .inl rfl
  · exact .inr rfl

theorem askSession_link (i : ℕ) : Program.Simulates D Eq (askSession M i) (askSession M' i) := by
  refine (puts_link hlink _).bind fun _ _ _ => (readLine_link hlink 1).bind ?_
  rintro line _ rfl
  exact puts_link hlink _

theorem chosen_link (v : View) (c : U8) : Program.Simulates D Eq (chosen M v c) (chosen M' v c) := by
  have hputs := puts_link hlink
  have hask := askSession_link hlink
  have hprocess : Program.Simulates D Eq (processSession M v) (processSession M' v) :=
    (hputs _).bind fun _ _ _ => (assign_simulates hlink _).bind fun _ _ _ => (assign_simulates hlink _).bind fun _ _ _ =>
      (awaitQ_link hlink).bind fun _ _ _ => (assign_simulates hlink _).bind fun _ _ _ => hputs _
  have hkeyboard : Program.Simulates D Eq (keyboardSession M) (keyboardSession M') :=
    (hputs _).bind fun _ _ _ => (hask 1).bind fun _ _ _ => (hask 2).bind fun _ _ _ => hask 3
  have hread : Program.Simulates D Eq (readSession M) (readSession M') := by
    refine (hputs _).bind fun _ _ _ => (readLine_link hlink 63).bind ?_
    rintro line _ rfl
    exact hputs _
  exact .ite .rfl (fun _ => hputs _) fun _ => .ite .rfl (fun _ => hputs _) fun _ => .ite .rfl (fun _ => hputs _) fun _ =>
    .ite .rfl (fun _ => hputs _) fun _ => .ite .rfl (fun _ => hprocess) fun _ => .ite .rfl (fun _ => hkeyboard) fun _ =>
    .ite .rfl (fun _ => hread) fun _ => .ite .rfl (fun _ => hputs _) fun _ => hputs _

theorem menuSession_link (v : View) : Program.Simulates D Eq (menuSession M v) (menuSession M' v) := by
  refine Program.Simulates.loop (R := Eq) ?_ (.of_reads fun _ => menuRound_reads v) rfl
  rintro _ _ -
  refine (puts_link hlink _).bind fun _ _ _ => (readLine_link hlink 15).bind ?_
  rintro line _ rfl
  cases line with
  | nil => exact .pure (.inr rfl)
  | cons c line =>
    exact .ite .rfl (fun _ => (puts_link hlink _).bind fun _ _ _ => .pure (.inl rfl)) fun _ =>
      (chosen_link hlink v c).bind fun _ _ _ => .pure (.inr rfl)

/-- The session goes the same way on both media. -/
theorem session_link (v : View) : Program.Simulates D Eq (session M v) (session M' v) := by
  refine (puts_link hlink _).bind fun _ _ _ =>
    Program.Simulates.loop (R := Eq) ?_ (.of_reads fun _ => sessionRound_reads v) rfl
  rintro _ _ -
  refine (puts_link hlink _).bind fun _ _ _ => (readLine_link hlink 63).bind ?_
  rintro line _ rfl
  refine Program.Simulates.bind (.ite .rfl (fun _ => .pure rfl) fun _ => ?_) fun _ _ _ => .pure (.inr rfl)
  unfold answerSession
  split
  · exact puts_link hlink _
  · exact menuSession_link hlink v

end

end N7OS.Demo
