import N7OS.Bin.DemoSession

/-! # What the demonstration shows

The code simulates the session on the console, with the blocks of `processus1` in between; without
these blocks the text is that of the session alone.
-/
namespace N7OS.Demo
open User Interactive LineEditor Execution

/-- What is shown at once: a block of the shell, or a block of `processus1`. -/
inductive Item
  | shell (block : List U8)
  | processus1 (block : List U8)
deriving DecidableEq

def Item.text : Item → List U8
  | shell block => block
  | processus1 block => block

def Item.shellText : Item → List U8
  | shell block => block
  | processus1 _ => []

def Item.processus1Text : Item → List U8
  | shell _ => []
  | processus1 block => block

def shownText (items : List Item) : List U8 := items.flatMap Item.text

/-- Without what `processus1` prints. -/
def shellText (items : List Item) : List U8 := items.flatMap Item.shellText

def processus1Text (items : List Item) : List U8 := items.flatMap Item.processus1Text

def transcript : Medium (List Item) where
  put items block := items ++ [.shell block]
  putP1 items block := items ++ [.processus1 block]
  p1Blocks _ n := some (written (p1Text n))

/-- The shell's texts alone. -/
def textOnly : Medium (List U8) where
  put shown block := shown ++ block
  putP1 shown _ := shown
  p1Blocks _ n := some (written (p1Text n))

/-! ## The calls -/

/-- The console has shown the items since `start`. -/
def Shown (start console : Console) (items : List Item) : Prop := console = consolePutbytes start (shownText items)

/-- An array holds a line that has been read into it. -/
def HoldsLine (n : ℕ) (r : ℕ × List U8) (line : List U8) : Prop :=
  r.1 = line.length ∧ line.length ≤ n ∧ r.2.length = n + 1 ∧ ∃ tail, r.2 = line ++ 0#8 :: tail

/-- The code goes with the session on the transcript, up to their values. -/
abbrev Follows {α β : Type} (start : Console) (R : α → β → Prop) (p : UserProgram α) (q : Session (List Item) β) : Prop :=
  Program.Simulates (Beside (Shown start)) R p q

section
variable {start : Console} {t : Setting} {v : View} {n : ℕ}

theorem Shown.append {console : Console} {items : List Item} (h : Shown start console items) (i : Item) :
    Shown start (consolePutbytes console i.text) (items ++ [i]) := by
  have hitems : shownText (items ++ [i]) = shownText items ++ i.text := by simp [shownText]
  rw [Shown, hitems, consolePutbytes_append, ← h]

theorem p1Blocks_eq (t : Setting) (console : Console) (n : U32) :
    t.medium.p1Blocks console n = some (written (p1Text n)) := by
  have hformat : Shell.literal "P1 iter %d\n" = ofString "P1 iter " ++ [Doprnt.percent, 0x64#8, newline, 0#8] := by
    rw [Shell.literal, ofString_ofList, ofString_ofList]
    rfl
  have hprint := doprnt_pieces [.text (ofString "P1 iter ") (plain_ofList rfl), .decimal n, .text [newline] (by decide)] []
  rw [Setting.medium, hformat]
  refine printfBlocks_eq ?_ t.p1Stack console
  simpa [Piece.args, Piece.fmt, Piece.shown, p1Text] using hprint

theorem link_shown (t : Setting) (start : Console) : Link t.medium transcript (Beside (Shown start)) := by
  refine link_beside ⟨?_, ?_, ?_⟩
  · exact fun _ _ block hshown => hshown.append (.shell block)
  · exact fun _ _ block hshown => hshown.append (.processus1 block)
  · exact fun console _ n _ => ⟨_, p1Blocks_eq t console n, rfl⟩

/-- A call of `printf` writes the blocks of its text. -/
theorem print_follows (t : Setting) {args : List Doprnt.VaArg} {fmt : String} {out : List U8}
    (h : Doprnt.doprnt 0#32 args (Shell.literal fmt) = some out) : Follows start Eq (print t args fmt) (puts transcript [out]) := by
  intro m m' input hm
  have hblocks : print t args fmt m input = writes t.medium (written out) m input := by
    rw [print, printfBlocks_eq h]
  rw [hblocks, puts, List.flatMap_cons, List.flatMap_nil, List.append_nil]
  exact writes_simulates (link_shown t start) (written out) m m' input hm

theorem pieces_follow (t : Setting) {args : List Doprnt.VaArg} {fmt : String} {out : List U8} (pieces : List Piece)
    (hargs : pieces.flatMap Piece.args = args) (hfmt : pieces.flatMap Piece.fmt ++ [0#8] = Shell.literal fmt)
    (hout : pieces.flatMap Piece.shown = out) : Follows start Eq (print t args fmt) (puts transcript [out]) := by
  refine print_follows t ?_
  rw [← hargs, ← hfmt, ← hout]
  exact doprnt_pieces pieces []

theorem seq_follows {p q : UserProgram PUnit} {a b outs : List (List U8)} (hp : Follows start Eq p (puts transcript a))
    (hq : Follows start Eq q (puts transcript b)) (houts : a ++ b = outs) :
    Follows start Eq (do p; q) (puts transcript outs) := by
  rw [← houts, ← puts_append]
  exact hp.bind fun _ _ _ => hq

theorem say_follows (t : Setting) {ss : List String} (hs : ∀ s ∈ ss, Plain (ofString s)) :
    Follows start Eq (say t ss) (puts transcript (lines ss)) := by
  induction ss with
  | nil => exact .pure rfl
  | cons s ss ih =>
    obtain ⟨hplain, hrest⟩ := List.forall_mem_cons.mp hs
    exact seq_follows (print_follows t (Shell.doprnt_literal hplain)) (ih hrest) rfl

/-- Whole lines are written in the same blocks whether they come as one text or as several. -/
theorem puts_flatten {outs : List (List U8)} (h : ∀ out ∈ outs, WholeLines out) :
    puts transcript [outs.flatten] = puts transcript outs := by
  rw [puts, puts, List.flatMap_cons, List.flatMap_nil, List.append_nil, written_flatten h]

theorem forM_follows {α : Type} {p : α → UserProgram PUnit} {out : α → List U8}
    (h : ∀ a, Follows start Eq (p a) (puts transcript [out a])) (xs : List α) :
    Follows start Eq (xs.forM p) (puts transcript (xs.map out)) := by
  induction xs with
  | nil => exact .pure rfl
  | cons x xs ih => exact seq_follows (h x) ih rfl

/-! ## Reading a line -/

/-- The buffer and the count while a line is read. -/
def Holds (n : ℕ) (s₀ : List U8) (a : List U8 × ℕ) (line : List U8) : Prop :=
  ∀ console, Edits n s₀ line ⟨a.1, a.2, console⟩

theorem readKey_follows {s₀ : List U8} {a : List U8 × ℕ} {line : List U8} (h : Holds n s₀ a line) (hn : n < s₀.length)
    (hlt : line.length < n) (c : U8) :
    Follows start (fun b line' => b.2 = lineKeys.isEnter c ∧ Holds n s₀ b.1 line') (readKey a c)
      (do put transcript (echo line c)
          pure (if lineKeys.isEnter c then line else edit lineKeys line c)) := by
  intro m m' input hm
  have hbefore := h m.display
  obtain ⟨r, last, hbody, hedits⟩ : ∃ r last, readBody ⟨a.1, a.2, m.display⟩ c = some (r, last) ∧
      Edits n s₀ (if lineKeys.isEnter c then line else edit lineKeys line c) r := by
    cases hc : lineKeys.isEnter c with
    | true => exact ⟨_, true, readBody_enter _ hc, hbefore.count, hbefore.room, hbefore.size, hbefore.text, hbefore.beyond⟩
    | false =>
      obtain ⟨r, hr, hnext⟩ := readBody_edit hbefore hn hlt hc
      exact ⟨r, false, hr, hnext⟩
  obtain ⟨hconsole, hlast, -⟩ := readBody_echo hbefore.count hbody
  have hkey : readKey a c m input = .done ((r.s, r.count), last) { m with display := r.console } input := by
    rw [readKey, hbody]
  rw [hkey, hconsole]
  refine .done ⟨hlast, fun console => ?_⟩ ⟨hm.display.append (.shell (echo line c)), hm.p1, hm.turns⟩ input
  exact ⟨hedits.count, hedits.room, hedits.size, hedits.text, hedits.beyond⟩

theorem readEnd_follows {s₀ : List U8} {a : List U8 × ℕ} {line : List U8} (h : Holds n s₀ a line) (hs : s₀.length = n + 1) :
    Follows start (HoldsLine n) (readEnd a) (pure line) := by
  intro m m' input hm
  obtain ⟨r, hr, hconsole, hsize, htext, hend, -⟩ := finishRead_edits (h m.display) (by omega) input
  have hfinish : readEnd a m input = .done (line.length, r.s) { m with display := r.console } input := by
    rw [readEnd, hr]
  rw [hfinish, hconsole]
  refine .done ⟨rfl, (h m.display).room, hsize.trans hs, r.s.drop (line.length + 1), ?_⟩ hm input
  exact Shell.split_terminator htext hend

theorem read_follows {s : List U8} {len : ℤ} (t : Setting) (hlen : len = n + 1) (hs : s.length = n + 1) :
    Follows start (HoldsLine n) (read t s len) (readLine transcript n) := by
  have hn : n < s.length := by omega
  refine Program.Simulates.loop (R := Holds n s) ?_ (lineRound_rounds n) (edits_start n s)
  intro a line h
  have hcount : a.2 = line.length := (h start).count
  rw [readRound, lineRound]
  refine .ite (by omega) (fun hlt => ?_) fun _ => ?_
  · refine (key_simulates (link_shown t start)).bind ?_
    rintro c _ rfl
    have hkey := @readKey_follows start n _ _ _ h hn (by omega) c
    cases hc : lineKeys.isEnter c with
    | true =>
      simp only [hc, if_true] at hkey ⊢
      rw [← Program.bind_pure_map (put _ _) line Sum.inl]
      refine hkey.bind ?_
      rintro ⟨a', _⟩ line' ⟨rfl, h'⟩
      exact (readEnd_follows h' hs).bind fun _ _ hline => .pure (.inl hline)
    | false =>
      simp only [hc, Bool.false_eq_true, if_false] at hkey ⊢
      rw [← Program.bind_pure_map (put _ _) (edit lineKeys line c) Sum.inr]
      refine hkey.bind ?_
      rintro ⟨a', _⟩ line' ⟨rfl, h'⟩
      exact .pure (.inr h')
  · exact (readEnd_follows h hs).bind fun _ _ hline => .pure (.inl hline)

/-! ## The steps -/

/-- The view is what the kernel holds. -/
structure Sees (t : Setting) (v : View) : Prop where
  listed : Listed v.names t.kernel
  table : TableInv t.kernel
  current : t.kernel.currentPid = v.current
  used : (Bitmap.members t.bitmap).ncard = v.used
  paging : t.cr0 &&& 0x80000000#32 ≠ 0#32 ↔ v.paging = true
  directory : t.cr3 = v.directory

theorem localArray_follows {α β : Type} {R : α → β → Prop} {f : List U8 → UserProgram α} {q : Session (List Item) β} (t : Setting)
    (length : ℕ) (hf : ∀ buf, buf.length = length → Follows start R (f buf) q) : Follows start R (localArray t length >>= f) q :=
  fun m m' input hm => hf _ (t.harrays length input) m m' input hm

theorem fibonacci_eq (n : ℕ) : fibonacci n = Nat.fib n := by
  induction n using Nat.strong_induction_on with
  | _ n ih =>
    rw [fibonacci]
    match n with
    | 0 => rfl
    | 1 => rfl
    | n + 2 =>
      have h₁ := ih (n + 1) (by omega)
      have h₂ := ih n (by omega)
      have e₁ : ((n + 2 : ℕ) : ℤ) - 1 = (n + 1 : ℕ) := by omega
      have e₂ : ((n + 2 : ℕ) : ℤ) - 2 = n := by omega
      rw [if_neg (by omega), e₁, e₂, h₁, h₂, Nat.fib_add_two]
      omega

theorem demoConsole_follows (t : Setting) : Follows start Eq (demoConsole t) (puts transcript consoleTexts) := by
  have hprint : Follows start Eq (print t [.word (BitVec.ofInt 32 5)] "Fibonacci(5) = %d\n")
      (puts transcript [ofString "Fibonacci(5) = " ++ (decimalText 5 ++ [newline])]) := by
    refine pieces_follow t [.text (ofString "Fibonacci(5) = ") (plain_ofList rfl), .decimal 5#32, .text [newline] (by decide)]
      rfl ?_ rfl
    simp only [List.flatMap_cons, List.flatMap_nil, Piece.fmt, Shell.literal]
    repeat rw [ofString_ofList]
    rfl
  have hfive : fibonacci 5 = 5 := fibonacci_eq 5
  rw [demoConsole, hfive]
  exact seq_follows (say_follows t (plain_cons rfl (plain_cons rfl plain_nil)))
    (seq_follows hprint (say_follows t (plain_cons rfl (plain_cons rfl (plain_cons rfl plain_nil)))) rfl) rfl

theorem demoInterrupt_follows (t : Setting) : Follows start Eq (demoInterrupt t) (puts transcript interruptTexts) :=
  seq_follows (say_follows t (plain_cons rfl (plain_cons rfl plain_nil)))
    (seq_follows (say_follows t (plain_cons rfl plain_nil)) (say_follows t (plain_cons rfl plain_nil)) rfl) rfl

theorem demoSyscall_follows (t : Setting) : Follows start Eq (demoSyscall t) (puts transcript syscallTexts) := by
  have hprint : Follows start Eq (print t [.word sysExample] "example() a retourne %d (attendu : 1)\n")
      (puts transcript [ofString "example() a retourne " ++ (decimalText 1 ++ ofString " (attendu : 1)\n")]) := by
    refine pieces_follow t [.text (ofString "example() a retourne ") (plain_ofList rfl), .decimal 1#32,
      .text (ofString " (attendu : 1)\n") (plain_ofList rfl)] rfl ?_ (by simp [Piece.shown])
    simp only [List.flatMap_cons, List.flatMap_nil, Piece.fmt, Shell.literal]
    repeat rw [ofString_ofList]
    rfl
  have hgood : Follows start Eq
      (if sysExample = 1#32 then say t ["Appel systeme example OK\n"] else say t ["Appel systeme example ECHEC\n"])
      (puts transcript (lines ["Appel systeme example OK\n"])) := by
    rw [if_pos (show sysExample = 1#32 from rfl)]
    exact say_follows t (plain_cons rfl plain_nil)
  exact seq_follows (say_follows t (plain_cons rfl plain_nil)) (seq_follows hprint hgood rfl) rfl

theorem demoTimer_follows (t : Setting) : Follows start Eq (demoTimer t) (puts transcript timerTexts) := by
  refine say_follows t ?_
  repeat refine plain_cons rfl ?_
  exact plain_nil

theorem waitForQ_follows (t : Setting) : Follows start Eq (waitForQ t) (awaitQ transcript) := by
  refine Program.Simulates.loop (R := Eq) ?_ (.of_reads fun _ => awaitQ_round_reads) rfl
  rintro _ _ -
  refine (key_simulates (link_shown t start)).bind ?_
  rintro c _ rfl
  refine .pure ?_
  split_ifs
  · exact .inl rfl
  · exact .inr rfl

theorem printSlot_follows (h : Sees t v) (i : Slot) :
    Follows start Eq (t.printSlot i) (puts transcript [(v.names[i.val]?).elim [] (slotLine v.current i)]) := by
  unfold Setting.printSlot
  cases hs : v.names[i.val]? with
  | none =>
    dsimp only
    rw [if_neg (not_not.mpr (h.listed.free i hs))]
    exact .pure rfl
  | some s =>
    dsimp only
    rw [if_pos (h.listed.used i s hs).1, ← h.current]
    exact print_follows t (doprnt_slot h.listed h.table hs)

theorem printTable_follows (h : Sees t v) : Follows start Eq t.printProcessTable
    (puts transcript [ofString "  pid   nom              etat\n" ++ processLines v.current v.names]) := by
  let slots := (List.finRange 16).map fun i : Slot => (v.names[i.val]?).elim [] (slotLine v.current i)
  have hflat : (lines ["  pid   nom              etat\n"] ++ slots).flatten =
      ofString "  pid   nom              etat\n" ++ processLines v.current v.names := by
    rw [← h.current, ← slotLines_eq h.listed, h.current, List.flatten_append]
    simp [lines, slots, List.flatMap_def]
  have hwhole : ∀ out ∈ lines ["  pid   nom              etat\n"] ++ slots, WholeLines out := by
    intro out hout
    rcases List.mem_append.mp hout with hout | hout
    · rw [List.mem_singleton.mp hout]
      exact wholeLines_ofList rfl
    · obtain ⟨i, -, rfl⟩ := List.mem_map.mp hout
      cases v.names[i.val]? with
      | none => exact wholeLines_nil
      | some s => exact wholeLines_line _
  rw [← hflat, puts_flatten hwhole]
  exact seq_follows (say_follows t (plain_cons rfl plain_nil)) (forM_follows (printSlot_follows h) _) rfl

theorem demoProcess_follows (h : Sees t v) : Follows start Eq (demoProcess t) (processSession transcript v) := by
  have hhead : Follows start Eq (say t ["\n--- Etape 5 : Processus et ordonnancement ---\n", "Table des processus :\n"])
      (puts transcript (lines ["\n--- Etape 5 : Processus et ordonnancement ---\n", "Table des processus :\n"])) :=
    say_follows t (plain_cons rfl (plain_cons rfl plain_nil))
  have hhelp : Follows start Eq
      (say t ["\nOrdonnancement : tourniquet (round-robin) sur la table,\n",
        "preemption toutes les 50 ms par l'IRQ 0 (timer).\n", "idle dort entre les tours, le shell execute cette demo.\n",
        "\nActivation de processus1. Tapez 'q' pour le stopper.\n\n"])
      (puts transcript (lines ["\nOrdonnancement : tourniquet (round-robin) sur la table,\n",
        "preemption toutes les 50 ms par l'IRQ 0 (timer).\n", "idle dort entre les tours, le shell execute cette demo.\n",
        "\nActivation de processus1. Tapez 'q' pour le stopper.\n\n"])) :=
    say_follows t (plain_cons rfl (plain_cons rfl (plain_cons rfl (plain_cons rfl plain_nil))))
  have hend : Follows start Eq
      (say t ["\nProcessus1 mis en sommeil.\n", "Les iterations P1 ont progresse en parallele de cette\n",
        "demo : preuve visible de la preemption.\n"]) (puts transcript processEndTexts) :=
    say_follows t (plain_cons rfl (plain_cons rfl (plain_cons rfl plain_nil)))
  have hlink := link_shown t start
  rw [processSession, processTexts, ← puts_append, ← puts_append, Program.bind_assoc, demoProcess]
  refine hhead.bind fun _ _ _ => ?_
  rw [Program.bind_assoc]
  exact (printTable_follows h).bind fun _ _ _ => hhelp.bind fun _ _ _ => (assign_simulates hlink _).bind fun _ _ _ =>
    (assign_simulates hlink _).bind fun _ _ _ => (waitForQ_follows t).bind fun _ _ _ =>
    (assign_simulates hlink _).bind fun _ _ _ => hend

/-- The character of a line read into two bytes, or the terminator. -/
theorem first_line {r : ℕ × List U8} {line : List U8} (h : HoldsLine 1 r line) : first r.2 = pure (line.headD 0#8) := by
  obtain ⟨-, -, -, tail, htail⟩ := h
  rw [htail]
  cases line <;> rfl

theorem askCharacter_follows (t : Setting) {i : ℕ} (hi : i < 4) :
    Follows start Eq (askCharacter t (BitVec.ofNat 32 i)) (askSession transcript i) := by
  have hnumber : (BitVec.ofNat 32 i).toInt = i := toInt_ofNat_of_lt (by omega)
  have hask : Follows start Eq (print t [.word (BitVec.ofNat 32 i)] "Caractere %d > ") (puts transcript [askText i]) := by
    refine pieces_follow t [.text (ofString "Caractere ") (plain_ofList rfl), .decimal (BitVec.ofNat 32 i),
      .text (ofString " > ") (plain_ofList rfl)] rfl ?_ (by simp [Piece.shown, hnumber, askText])
    simp only [List.flatMap_cons, List.flatMap_nil, Piece.fmt, Shell.literal]
    repeat rw [ofString_ofList]
    rfl
  have hanswer (c : U8) : Follows start Eq
      (print t [.word (c.setWidth 32), .word (c.signExtend 32)] "  ASCII = %d (caractere : %c)\n")
      (puts transcript [asciiText c]) := by
    have hcode : (c.setWidth 32).toInt = c.toNat := by
      have hlt := c.isLt
      rw [← BitVec.ofNat_toNat]
      exact toInt_ofNat_of_lt (by omega)
    refine pieces_follow t [.text (ofString "  ASCII = ") (plain_ofList rfl), .decimal (c.setWidth 32),
      .text (ofString " (caractere : ") (plain_ofList rfl), .char (c.signExtend 32), .text (ofString ")\n") (plain_ofList rfl)]
      rfl ?_ (by simp [Piece.shown, hcode, asciiText, setWidth_signExtend])
    simp only [List.flatMap_cons, List.flatMap_nil, Piece.fmt, Shell.literal]
    repeat rw [ofString_ofList]
    rfl
  refine localArray_follows t 2 fun buf hbuf => ?_
  refine hask.bind fun _ _ _ => (read_follows (n := 1) t rfl hbuf).bind fun r line hline => ?_
  dsimp only
  rw [first_line hline]
  exact hanswer _

theorem demoKeyboard_follows (t : Setting) : Follows start Eq (demoKeyboard t) (keyboardSession transcript) := by
  have hhead : Follows start Eq
      (say t ["\n--- Etape 6 : Clavier ---\n", "Tapez 3 caracteres (chacun suivi d'Entree).\n",
        "Pour chacun on affichera son code ASCII.\n"]) (puts transcript keyboardTexts) :=
    say_follows t (plain_cons rfl (plain_cons rfl (plain_cons rfl plain_nil)))
  exact hhead.bind fun _ _ _ => (askCharacter_follows t (i := 1) (by decide)).bind fun _ _ _ =>
    (askCharacter_follows t (i := 2) (by decide)).bind fun _ _ _ => askCharacter_follows t (i := 3) (by decide)

theorem demoRead_follows (t : Setting) : Follows start Eq (demoRead t) (readSession transcript) := by
  have hhead : Follows start Eq
      (say t ["\n--- Etape 7 : Appel systeme read ---\n", "Tapez une phrase courte puis Entree :\n", "> "])
      (puts transcript readTexts) :=
    say_follows t (plain_cons rfl (plain_cons rfl (plain_cons rfl plain_nil)))
  refine hhead.bind fun _ _ _ => localArray_follows t 64 fun buf hbuf => ?_
  refine (read_follows (n := 63) t rfl hbuf).bind ?_
  rintro ⟨count, bytes⟩ line ⟨rfl, hle, -, tail, rfl⟩
  obtain ⟨rest, hsplit⟩ := Shell.text_split line tail
  have hlength : (Shell.text line).length ≤ line.length := (List.takeWhile_sublist _).length_le
  have hstring : Doprnt.cstring (line ++ 0#8 :: tail) = some (Shell.text line) := by
    rw [hsplit]
    exact cstring_string (Shell.zero_notMem_text line) (by omega) rest
  have hcount : (BitVec.ofNat 32 line.length).toInt = line.length := toInt_ofNat_of_lt (by omega)
  refine pieces_follow t [.text (ofString "Vous avez tape ") (plain_ofList rfl), .decimal (BitVec.ofNat 32 line.length),
    .text (ofString " caracteres : \"") (plain_ofList rfl), .string _ _ hstring, .text (ofString "\"\n") (plain_ofList rfl)]
    rfl ?_ (by simp [Piece.shown, hcount, lineText])
  simp only [List.flatMap_cons, List.flatMap_nil, Piece.fmt, Shell.literal]
  repeat rw [ofString_ofList]
  rfl

theorem demoPaging_follows (h : Sees t v) : Follows start Eq (demoPaging t) (puts transcript (pagingTexts v)) := by
  have hcr0 : Follows start Eq
      (if t.cr0 &&& 0x80000000#32 ≠ 0#32 then say t ["CR0.PG = 1 -> pagination active.\n"]
        else say t ["CR0.PG = 0 -> pagination inactive (anormal).\n"]) (puts transcript (lines [cr0Text v.paging])) := by
    by_cases hpaging : v.paging = true
    · rw [if_pos (h.paging.mpr hpaging), cr0Text, if_pos hpaging]
      exact say_follows t (plain_cons rfl plain_nil)
    · rw [if_neg (mt h.paging.mp hpaging), cr0Text, if_neg hpaging]
      exact say_follows t (plain_cons rfl plain_nil)
  have hcr3 : Follows start Eq (print t [.word t.cr3] "CR3 (repertoire de pages) = 0x%x\n")
      (puts transcript [cr3Text v.directory]) := by
    refine pieces_follow t [.text (ofString "CR3 (repertoire de pages) = 0x") (plain_ofList rfl), .hex t.cr3,
      .text [newline] (by decide)] rfl ?_ (by simp [Piece.shown, cr3Text, h.directory])
    simp only [List.flatMap_cons, List.flatMap_nil, Piece.fmt, Shell.literal]
    repeat rw [ofString_ofList]
    rfl
  have hmem : Follows start Eq t.printMem (puts transcript [memReport v.used]) :=
    print_follows t (h.used ▸ doprnt_printMem t.bitmap)
  exact seq_follows (say_follows t (plain_cons rfl plain_nil)) (seq_follows hcr0 (seq_follows hcr3 hmem rfl) rfl) rfl

theorem demoStep_follows (h : Sees t v) (c : U8) : Follows start Eq (demoStep t c) (chosen transcript v c) := by
  have hother : Follows start Eq (print t [.word (c.signExtend 32)] "Choix invalide : %c\n") (puts transcript [invalidText c]) := by
    refine pieces_follow t [.text (ofString "Choix invalide : ") (plain_ofList rfl), .char (c.signExtend 32),
      .text [newline] (by decide)] rfl ?_ (by simp [Piece.shown, setWidth_signExtend, invalidText])
    simp only [List.flatMap_cons, List.flatMap_nil, Piece.fmt, Shell.literal]
    repeat rw [ofString_ofList]
    rfl
  exact .ite .rfl (fun _ => demoConsole_follows t) fun _ => .ite .rfl (fun _ => demoInterrupt_follows t) fun _ =>
    .ite .rfl (fun _ => demoSyscall_follows t) fun _ => .ite .rfl (fun _ => demoTimer_follows t) fun _ =>
    .ite .rfl (fun _ => demoProcess_follows h) fun _ => .ite .rfl (fun _ => demoKeyboard_follows t) fun _ =>
    .ite .rfl (fun _ => demoRead_follows t) fun _ => .ite .rfl (fun _ => demoPaging_follows h) fun _ => hother

/-! ## The menu and the shell -/

/-- One round: the array stays an array of 16 bytes. -/
theorem demoRound_follows (h : Sees t v) {choice : List U8} (hchoice : choice.length = 16) :
    Follows start (Sum.LiftRel Eq fun (array : List U8) _ => array.length = 16) (demoRound t choice)
      (menuRound transcript v) := by
  have hmenu : Follows start Eq (do printMenu t; say t ["Choix > "]) (puts transcript menuTexts) := by
    refine seq_follows (say_follows t ?_) (say_follows t (plain_cons rfl plain_nil)) rfl
    repeat refine plain_cons rfl ?_
    exact plain_nil
  have hleave : Follows start Eq (say t ["Sortie du mode demo.\n"]) (puts transcript (lines ["Sortie du mode demo.\n"])) :=
    say_follows t (plain_cons rfl plain_nil)
  rw [demoRound, ← Program.bind_assoc, menuRound]
  refine hmenu.bind fun _ _ _ => (read_follows (n := 15) t rfl hchoice).bind ?_
  rintro ⟨count, bytes⟩ line ⟨rfl, -, hbytes, tail, rfl⟩
  cases line with
  | nil => exact .pure (.inr hbytes)
  | cons c line =>
    dsimp only
    rw [if_neg (show (c :: line).length ≠ 0 from Nat.succ_ne_zero _)]
    exact .ite .rfl (fun _ => hleave.bind fun _ _ _ => .pure (.inl rfl)) fun _ =>
      (demoStep_follows h c).bind fun _ _ _ => .pure (.inr hbytes)

theorem demo_follows (h : Sees t v) : Follows start Eq (demo t) (menuSession transcript v) :=
  Program.Simulates.loop (fun _ _ harray => demoRound_follows h harray) (.of_reads fun _ => menuRound_reads v) t.hchoice

/-- One test of the chain. -/
theorem test_follows {test : Option Bool} {c : Prop} [Decidable c] (h : test = some (decide c)) {p q : UserProgram PUnit}
    {r : Session (List Item) PUnit} (hp : c → Follows start Eq p r) (hq : ¬c → Follows start Eq q r) :
    Follows start Eq (do let b ← reads test; if b then p else q) r := by
  intro m m' input hm
  rw [reads_bind, h]
  by_cases hc : c
  · simp only [hc, decide_true, if_true]
    exact hp hc m m' input hm
  · simp only [hc, decide_false, if_false, Bool.false_eq_true]
    exact hq hc m m' input hm

theorem cmdHelp_follows (t : Setting) : Follows start Eq (cmdHelp t) (puts transcript [Shell.helpText]) := by
  have hflat : (lines ["Commandes disponibles :\n", "  help     liste des commandes\n", "  clear    efface l'ecran\n",
      "  time     etat du systeme\n", "  echo X   reaffiche X\n", "  demo     menu de demonstration des etapes\n"]).flatten =
      Shell.helpText := by
    simp [lines, Shell.helpText]
  rw [← hflat, puts_flatten]
  · refine say_follows t ?_
    repeat refine plain_cons rfl ?_
    exact plain_nil
  · repeat refine List.forall_mem_cons.mpr ⟨wholeLines_ofList rfl, ?_⟩
    exact fun out hout => absurd hout List.not_mem_nil

theorem cmdClear_follows (t : Setting) : Follows start Eq (cmdClear t) (puts transcript [[formFeed]]) :=
  print_follows t (Shell.doprnt_literal (plain_ofList rfl))

theorem cmdTime_follows (t : Setting) : Follows start Eq (cmdTime t) (puts transcript [Shell.timeText]) :=
  print_follows t (Shell.doprnt_literal (plain_ofList rfl))

theorem cmdEcho_follows (t : Setting) {arg s : List U8} (h : Doprnt.cstring arg = some s) :
    Follows start Eq (cmdEcho t arg) (puts transcript [s ++ [newline]]) := by
  refine pieces_follow t [.string arg s h, .text [newline] (by decide)] rfl ?_ (by simp [Piece.shown])
  simp only [List.flatMap_cons, List.flatMap_nil, Piece.fmt, Shell.literal]
  rw [ofString_ofList]
  rfl

/-- The end of the chain. -/
theorem unknown_follows (t : Setting) {array s : List U8} (h : Doprnt.cstring array = some s) :
    Follows start Eq (do print t [.string array] "Commande inconnue : %s\n"; say t ["Tapez 'help' pour la liste.\n"])
      (puts transcript [Shell.unknownText s]) := by
  have hflat : ([ofString "Commande inconnue : " ++ s ++ [newline]] ++ lines ["Tapez 'help' pour la liste.\n"]).flatten =
      Shell.unknownText s := by
    simp [lines, Shell.unknownText]
  have hprint : Follows start Eq (print t [.string array] "Commande inconnue : %s\n")
      (puts transcript [ofString "Commande inconnue : " ++ s ++ [newline]]) := by
    refine pieces_follow t [.text (ofString "Commande inconnue : ") (plain_ofList rfl), .string array s h,
      .text [newline] (by decide)] rfl ?_ (by simp [Piece.shown])
    simp only [List.flatMap_cons, List.flatMap_nil, Piece.fmt, Shell.literal]
    repeat rw [ofString_ofList]
    rfl
  rw [← hflat, puts_flatten]
  · exact seq_follows hprint (say_follows t (plain_cons rfl plain_nil)) rfl
  · refine List.forall_mem_cons.mpr ⟨wholeLines_line _, List.forall_mem_cons.mpr ⟨wholeLines_ofList rfl, ?_⟩⟩
    exact fun out hout => absurd hout List.not_mem_nil

theorem answer_some {s out : List U8} {line : List U8} (hs : Shell.text line = s) (h : Shell.answer s = some out) :
    answerSession transcript v line = puts transcript [out] := by
  rw [answerSession, hs, h]

/-- The chain of tests leads to the answer of the session. -/
theorem command_follows (h : Sees t v) {line tail : List U8} (hle : line.length ≤ 63) :
    Follows start Eq (command t (line ++ 0#8 :: tail)) (answerSession transcript v line) := by
  obtain ⟨rest, hsplit⟩ := Shell.text_split line tail
  have hlength : (Shell.text line).length ≤ line.length := (List.takeWhile_sublist _).length_le
  have hzero := Shell.zero_notMem_text line
  have hstring : Doprnt.cstring (line ++ 0#8 :: tail) = some (Shell.text line) := by
    rw [hsplit]
    exact cstring_string hzero (by omega) rest
  have htest {w : String} (hw : Shell.IsWord (ofString w)) : Shell.strStartsWith (line ++ 0#8 :: tail) (Shell.literal w) =
      some (decide (Shell.firstWord (Shell.text line) = ofString w)) := by
    rw [hsplit]
    exact Shell.strStartsWith_eq hw hzero rest
  generalize hs : Shell.text line = s at *
  refine test_follows (htest (by decide +kernel)) (fun hhelp => ?_) fun hhelp => ?_
  · rw [answer_some hs (if_pos hhelp)]
    exact cmdHelp_follows t
  refine test_follows (htest (by decide +kernel)) (fun hclear => ?_) fun hclear => ?_
  · rw [answer_some hs (by rw [Shell.answer, if_neg hhelp, if_pos hclear])]
    exact cmdClear_follows t
  refine test_follows (htest (by decide +kernel)) (fun htime => ?_) fun htime => ?_
  · rw [answer_some hs (by rw [Shell.answer, if_neg hhelp, if_neg hclear, if_pos htime])]
    exact cmdTime_follows t
  refine test_follows (htest (by decide +kernel)) (fun hdemo => ?_) fun hdemo => ?_
  · have hanswer : Shell.answer s = none := by
      rw [Shell.answer, if_neg hhelp, if_neg hclear, if_neg htime, if_pos hdemo]
    rw [answerSession, hs, hanswer]
    exact demo_follows h
  refine test_follows (htest (by decide +kernel)) (fun hecho => ?_) fun hecho => ?_
  · have hsub := Shell.afterFirstWord_sublist s
    have hshort := hsub.length_le
    have hargument : Doprnt.cstring (Shell.afterFirstWord s ++ 0#8 :: rest) = some (Shell.afterFirstWord s) :=
      cstring_string (fun hmem => hzero (hsub.subset hmem)) (by omega) rest
    rw [answer_some hs (by rw [Shell.answer, if_neg hhelp, if_neg hclear, if_neg htime, if_neg hdemo, if_pos hecho]), hsplit,
      Shell.echoArgument_eq hecho]
    exact cmdEcho_follows t hargument
  · rw [answer_some hs (by rw [Shell.answer, if_neg hhelp, if_neg hclear, if_neg htime, if_neg hdemo, if_neg hecho])]
    exact unknown_follows t hstring

theorem shellRound_follows (h : Sees t v) {line : List U8} (hline : line.length = Shell.lineMax) :
    Follows start (Sum.LiftRel Eq fun (array : List U8) _ => array.length = Shell.lineMax) (shellRound t line)
      (sessionRound transcript v) := by
  rw [shellRound, sessionRound]
  refine (say_follows t (plain_cons rfl plain_nil)).bind fun _ _ _ => (read_follows (n := 63) t rfl hline).bind ?_
  rintro ⟨count, bytes⟩ line ⟨rfl, hle, hbytes, tail, rfl⟩
  cases line with
  | nil => exact .pure (.inr hbytes)
  | cons c line =>
    dsimp only
    rw [if_neg (show (c :: line).length ≠ 0 from Nat.succ_ne_zero _), if_neg (List.cons_ne_nil c line)]
    exact (command_follows h hle).bind fun _ _ _ => .pure (.inr hbytes)

theorem shell_follows (h : Sees t v) {line : List U8} (hline : line.length = Shell.lineMax) :
    Follows start Eq (shell t line) (session transcript v) :=
  (say_follows t (plain_cons rfl plain_nil)).bind fun _ _ _ =>
    Program.Simulates.loop (fun _ _ harray => shellRound_follows h harray) (.of_reads fun _ => sessionRound_reads v) hline

end

/-! ## The whole -/

/-- What is to be seen of a kernel and the processes that have been created on it. -/
noncomputable def Setting.view (t : Setting) (names : List (List U8)) : View where
  names := names
  current := t.kernel.currentPid
  used := (Bitmap.members t.bitmap).ncard
  paging := decide (t.cr0 &&& 0x80000000#32 ≠ 0#32)
  directory := t.cr3

theorem sees_view {t : Setting} {names : List (List U8)} (h : Listed names t.kernel) (hk : TableInv t.kernel) :
    Sees t (t.view names) where
  listed := h
  table := hk
  current := rfl
  used := rfl
  paging := by rw [Setting.view, decide_eq_true_iff]
  directory := rfl

/-- What `processus1` prints changes nothing of what the shell shows. -/
theorem link_textOnly : Link transcript textOnly (Alone fun items shown => shellText items = shown) := by
  refine link_alone ⟨?_, ?_, ?_⟩
  · intro items shown block h
    simp [transcript, textOnly, shellText, Item.shellText, ← h]
  · intro items shown block h
    simp [transcript, shellText, Item.shellText, ← h]
  · exact fun _ _ n _ => ⟨_, rfl⟩

/-- What `processus1` has still to write of its line. -/
def Point.unwritten : Point → List U8
  | print blocks => blocks.flatten
  | _ => []

/-- `processus1` has written its lines one after the other; the last may be unfinished. -/
def InLines (items : List Item) (point : Point) : Prop :=
  ∃ ns : List U32, processus1Text items ++ point.unwritten = ns.flatMap p1Text

theorem turn_inLines {m : Shared (List Item)} (h : InLines m.display m.p1.point) :
    ∃ e, turn transcript m = some e ∧ InLines e.display e.p1.point := by
  obtain ⟨ns, hns⟩ := h
  unfold turn
  cases hpoint : m.p1.point with
  | test =>
    rw [hpoint] at hns
    refine ⟨_, rfl, ns, ?_⟩
    rw [← hns]
    cases m.p1.active <;> simp [Processus1.goto, hpoint, Point.unwritten]
  | load =>
    rw [hpoint] at hns
    exact ⟨_, rfl, ns, hns⟩
  | store n =>
    rw [hpoint] at hns
    refine ⟨_, rfl, ns ++ [n], ?_⟩
    simpa [Point.unwritten, flatten_written] using hns
  | print blocks =>
    rw [hpoint] at hns
    cases blocks with
    | nil => exact ⟨_, rfl, ns, hns⟩
    | cons block blocks =>
      refine ⟨_, rfl, ns, ?_⟩
      simpa [transcript, processus1Text, Item.processus1Text, Processus1.goto, Point.unwritten] using hns

theorem turns_inLines (k : ℕ) {m : Shared (List Item)} (h : InLines m.display m.p1.point) :
    ∃ e, turns transcript k m = some e ∧ InLines e.display e.p1.point := by
  induction k generalizing m with
  | zero => exact ⟨m, rfl, h⟩
  | succ k ih =>
    obtain ⟨e, he, hnext⟩ := turn_inLines h
    rw [turns, he]
    exact ih hnext

/-- The session keeps the lines of `processus1` in order. -/
theorem link_inLines : Link transcript transcript fun m m' => m = m' ∧ InLines m.display m.p1.point := by
  constructor
  · rintro m _ block ⟨rfl, ns, hns⟩
    exact ⟨rfl, ns, by simpa [transcript, processus1Text, Item.processus1Text] using hns⟩
  · rintro f m _ ⟨rfl, h⟩
    exact ⟨rfl, h⟩
  · rintro m _ ⟨rfl, h⟩
    rw [background]
    cases m.turns with
    | nil => exact ⟨m, m, rfl, rfl, rfl, h⟩
    | cons k rest =>
      obtain ⟨e, he, hnext⟩ := turns_inLines k (m := { m with turns := rest }) h
      exact ⟨e, e, he, he, rfl, hnext⟩

/-- For every sequence of keys, whatever processes have been created and pages taken, and whenever `processus1` runs, the shell
with its demonstration shows the items of the session and waits; without the blocks of `processus1` they are the text of the
session alone, and these blocks are its lines. It never does what is undefined. -/
theorem shell_shown {L : Layout} {m : ByteMemory.Memory} {tr : List TableEvent} {t : Setting}
    (hk : Runs (TableStep L) (kernelStart L m) tr t.kernel) {line : List U8} (hline : line.length = 64)
    (console : Console) (turns : List ℕ) (input : List U8) :
    let v := t.view (baseNames ++ createdNames tr)
    ∃ s s' alone, shell t line ⟨console, .start, turns⟩ input = .waits s ∧
      session transcript v ⟨[], .start, turns⟩ input = .waits s' ∧
      s = { s' with display := consolePutbytes console (shownText s'.display) } ∧
      session textOnly v ⟨[], .start, []⟩ input = .waits alone ∧ alone.display = shellText s'.display ∧
      InLines s'.display s'.p1.point := by
  intro v
  have hsees : Sees t v := sees_view (listed_run hk) (tableInv_run hk)
  have hcode := @shell_follows console t v hsees line hline ⟨console, .start, turns⟩ ⟨[], .start, turns⟩ input ⟨rfl, rfl, rfl⟩
  have halone := session_link link_textOnly v ⟨[], .start, turns⟩ ⟨[], .start, []⟩ input ⟨rfl, rfl⟩
  have hlines := session_link link_inLines v ⟨[], .start, turns⟩ ⟨[], .start, turns⟩ input ⟨rfl, [], rfl⟩
  generalize shell t line _ input = o, session transcript v _ input = o', session textOnly v _ input = o'' at hcode halone hlines ⊢
  cases hcode with
  | @done a _ _ _ _ _ _ => exact a.elim
  | waits hshown =>
    cases halone with
    | waits htext =>
      cases hlines with
      | waits hp1 =>
        exact ⟨_, _, _, rfl, rfl, Shared.ext hshown.display hshown.p1 hshown.turns, rfl, htext.display.symm, hp1.2⟩

/-- The kernel after its start. -/
def Setting.sample : Setting where
  stack _ := 0#8
  p1Stack _ := 0#8
  choice := List.replicate 16 0#8
  uninitialised length _ := List.replicate length 0#8
  kernel := kernelStart .sample fun _ => 0
  bitmap := Bitmap.empty 128
  cr0 := 0x80000001#32
  cr3 := 0x121000#32
  hchoice := List.length_replicate
  harrays _ _ := List.length_replicate

/-- `demo`, `5`, `z`, `q`, and `q` again. `processus1` has written three of its lines and the beginning of a fourth when it is
put to sleep; the end of that line comes behind the next words of the shell. -/
theorem shell_shown_keys :
    let console := Console.boot (fun _ => 0) ⟨0, fun _ => 0⟩
    let v := Setting.sample.view baseNames
    shell .sample (List.replicate 64 0#8) ⟨console, .start, List.replicate 63 0 ++ [10, 12, 0, 0, 0, 0, 3]⟩
        (ofString "demo\r5\rzqq\r") =
      .waits ⟨consolePutbytes console (Shell.banner ++ ofString "n7OS> demo\n" ++ menuTexts.flatten ++ ofString "5\n" ++
        (processTexts v).flatten ++ p1Text 0 ++ p1Text 1 ++ p1Text 2 ++ ofString "P1 iter 3\nProcessus1 mis en sommeil.\n\n" ++
        (processEndTexts.drop 1).flatten ++ menuTexts.flatten ++ ofString "q\nSortie du mode demo.\nn7OS> "),
        ⟨⟨false, 4#32⟩, .test⟩, []⟩ := by
  intro console v
  obtain ⟨s, s', -, hs, hs', hshown, -, -, -⟩ := shell_shown (t := .sample) (.nil (kernelStart .sample fun _ => 0))
    (List.length_replicate : (List.replicate 64 0#8).length = 64) console (List.replicate 63 0 ++ [10, 12, 0, 0, 0, 0, 3])
    (ofString "demo\r5\rzqq\r")
  have hsession : (match session transcript v ⟨[], .start, List.replicate 63 0 ++ [10, 12, 0, 0, 0, 0, 3]⟩
        (ofString "demo\r5\rzqq\r") with
      | .waits s => some (shownText s.display, s.p1, s.turns)
      | _ => none) =
      some (Shell.banner ++ ofString "n7OS> demo\n" ++ menuTexts.flatten ++ ofString "5\n" ++ (processTexts v).flatten ++
        p1Text 0 ++ p1Text 1 ++ p1Text 2 ++ ofString "P1 iter 3\nProcessus1 mis en sommeil.\n\n" ++
        (processEndTexts.drop 1).flatten ++ menuTexts.flatten ++ ofString "q\nSortie du mode demo.\nn7OS> ",
        ⟨⟨false, 4#32⟩, .test⟩, []) := by
    decide +kernel
  have hreached : session transcript v _ _ = .waits s' := hs'
  rw [hreached] at hsession
  simp only [Option.some.injEq, Prod.mk.injEq] at hsession
  obtain ⟨htext, hp1, hturns⟩ := hsession
  rw [hs, hshown, htext, hp1, hturns]

end N7OS.Demo
