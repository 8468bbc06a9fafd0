import N7OS.Bin.Shell

/-! # What a session with the shell shows

The shell as its user sees it: a prompt, the echo of what is typed, and an answer that
depends on the line alone. The text of a session is a function of the keys.
-/
namespace N7OS.Shell
open User LineEditor

/-! ## The session -/

def prompt : List U8 := ofString "n7OS> "

def banner : List U8 := ofString "Bienvenue dans n7sh. Tapez 'help' pour la liste des commandes.\n"

def helpText : List U8 :=
  ofString "Commandes disponibles :\n" ++ ofString "  help     liste des commandes\n" ++
    ofString "  clear    efface l'ecran\n" ++ ofString "  time     etat du systeme\n" ++
    ofString "  echo X   reaffiche X\n" ++ ofString "  demo     menu de demonstration des etapes\n"

def timeText : List U8 := ofString "Voir l'horloge en haut a droite (HH:MM:SS).\n"

def unknownText (s : List U8) : List U8 :=
  ofString "Commande inconnue : " ++ s ++ [newline] ++ ofString "Tapez 'help' pour la liste.\n"

def firstWord (s : List U8) : List U8 := s.takeWhile (· ≠ 0x20#8)

/-- What follows the first word and one space. -/
def afterFirstWord (s : List U8) : List U8 := (s.dropWhile (· ≠ 0x20#8)).tail

/-- The answer to a line, or nothing where the demonstration is called. -/
def answer (s : List U8) : Option (List U8) :=
  if firstWord s = ofString "help" then some helpText
  else if firstWord s = ofString "clear" then some [formFeed]
  else if firstWord s = ofString "time" then some timeText
  else if firstWord s = ofString "demo" then none
  else if firstWord s = ofString "echo" then some (afterFirstWord s ++ [newline])
  else some (unknownText s)

/-- A line as a C string. -/
def text (line : List U8) : List U8 := line.takeWhile (· ≠ 0#8)

/-- What is shown for some keys, and the keys left where the demonstration is called. -/
def session (input : List U8) : List U8 × Option (List U8) :=
  match _h : consume lineKeys 63 [] input with
  | none => (prompt ++ echoes [] input, none)
  | some (pre, line, rest) =>
    let shown := prompt ++ echoes [] pre
    if line = [] then (shown ++ (session rest).1, (session rest).2)
    else
      match answer (text line) with
      | none => (shown, some rest)
      | some out => (shown ++ out ++ (session rest).1, (session rest).2)
termination_by input.length
decreasing_by all_goals exact consume_rest (by decide) _h

/-! ## The commands -/

section
variable (stack : ℕ → U8) (console : Console)

theorem doprnt_literal {s : String} (hs : Plain (ofString s)) : Doprnt.doprnt 0#32 [] (literal s) = some (ofString s) := by
  rw [literal, Doprnt.doprnt_plain hs, Doprnt.doprnt_nul, Option.map_some, List.append_nil]

theorem say_eq {s : String} (hs : Plain (ofString s)) : say stack console s = some (consolePutbytes console (ofString s)) :=
  printf_eq (doprnt_literal hs) stack console

theorem say_all {ss : List String} (hs : ∀ s ∈ ss, Plain (ofString s)) :
    ss.foldlM (say stack) console = some (consolePutbytes console (ss.flatMap ofString)) := by
  refine foldlM_putbytes ?_ console
  exact fun s hmem console => say_eq stack console (hs s hmem)

/-- A literal with one string in it. -/
theorem printf_string (pre post : List U8) (hpre : Plain pre) (hpost : Plain post) {p s : List U8}
    (h : Doprnt.cstring p = some s) :
    printf stack console [.string p] (pre ++ Doprnt.percent :: 0x73#8 :: (post ++ [0#8])) =
      some (consolePutbytes console (pre ++ s ++ post)) := by
  refine printf_eq ?_ stack console
  rw [Doprnt.doprnt_plain hpre, Doprnt.doprnt_string h, Doprnt.doprnt_plain hpost, Doprnt.doprnt_nul]
  simp

theorem cmdHelp_eq : cmdHelp stack console = some (consolePutbytes console helpText) := by
  have hplain : ∀ s ∈ ["Commandes disponibles :\n", "  help     liste des commandes\n", "  clear    efface l'ecran\n",
      "  time     etat du systeme\n", "  echo X   reaffiche X\n", "  demo     menu de demonstration des etapes\n"],
      Plain (ofString s) := by
    repeat refine plain_cons rfl ?_
    exact plain_nil
  rw [cmdHelp, say_all stack console hplain]
  rfl

theorem cmdClear_eq : cmdClear stack console = some (consolePutbytes console [formFeed]) := by
  have hfeed : Doprnt.doprnt 0#32 [] [formFeed, 0#8] = some [formFeed] := by
    have hplain := Doprnt.doprnt_plain (s := [formFeed]) (by decide) 0#32 [] [0#8]
    rwa [Doprnt.doprnt_nul] at hplain
  rw [cmdClear, printf_eq hfeed]

theorem cmdTime_eq : cmdTime stack console = some (consolePutbytes console timeText) := by
  rw [cmdTime, say_eq stack console (plain_ofList rfl)]
  rfl

theorem cmdEcho_eq {arg s : List U8} (h : Doprnt.cstring arg = some s) :
    cmdEcho stack console arg = some (consolePutbytes console (s ++ [newline])) :=
  printf_string stack console [] [newline] (by decide) (by decide) h

/-- The end of the chain. -/
theorem unknown_eq {line s : List U8} (h : Doprnt.cstring line = some s) :
    (printf stack console [.string line] (literal "Commande inconnue : %s\n")).bind
        (say stack · "Tapez 'help' pour la liste.\n") = some (consolePutbytes console (unknownText s)) := by
  have hprint := printf_string stack console (ofString "Commande inconnue : ") [newline] (plain_ofList rfl) (by decide) h
  have hformat : literal "Commande inconnue : %s\n" =
      ofString "Commande inconnue : " ++ Doprnt.percent :: 0x73#8 :: ([newline] ++ [0#8]) := by
    rw [literal, ofString_ofList, ofString_ofList]
    rfl
  rw [hformat, hprint, Option.bind_some, say_eq stack _ (plain_ofList rfl), ← consolePutbytes_append]
  rfl

end

/-! ## The first word -/

theorem firstWord_nil : firstWord [] = [] := rfl

theorem firstWord_cons (c : U8) (s : List U8) : firstWord (c :: s) = if c = 0x20#8 then [] else c :: firstWord s := by
  unfold firstWord
  rw [List.takeWhile_cons]
  by_cases hc : c = 0x20#8 <;> simp [hc]

/-- No space and no terminator. -/
def IsWord (w : List U8) : Prop := ∀ c ∈ w, c ≠ 0#8 ∧ c ≠ 0x20#8

instance : DecidablePred IsWord := fun w =>
  decidable_of_iff (w.all fun c => c != 0#8 && c != 0x20#8) (by simp [IsWord])

/-- The comparison is with the whole first word, and ends at the terminator. -/
theorem strStartsWith_eq {w s : List U8} (hw : IsWord w) (hs : 0#8 ∉ s) (rest : List U8) :
    strStartsWith (s ++ 0#8 :: rest) (w ++ [0#8]) = some (decide (firstWord s = w)) := by
  induction w generalizing s with
  | nil =>
    cases s with
    | nil => rfl
    | cons c s =>
      have hc : c ≠ 0#8 := (List.ne_and_not_mem_of_not_mem_cons hs).1.symm
      rw [List.nil_append, List.cons_append, strStartsWith, if_pos rfl, firstWord_cons]
      by_cases hspace : c = 0x20#8 <;> simp [hspace, hc]
  | cons p w ih =>
    obtain ⟨⟨hp, hspace⟩, hrest⟩ := List.forall_mem_cons.mp hw
    cases s with
    | nil => simp [strStartsWith, hp, hp.symm, firstWord_nil]
    | cons c s =>
      obtain ⟨-, hs'⟩ := List.ne_and_not_mem_of_not_mem_cons hs
      rw [List.cons_append, List.cons_append, strStartsWith, if_neg hp, firstWord_cons]
      by_cases hcp : c = p
      · subst hcp
        rw [if_neg (not_not.mpr rfl), ih hrest hs', if_neg hspace]
        simp
      · rw [if_pos hcp]
        by_cases hc : c = 0x20#8 <;> simp [hc, hcp]

theorem echoArgument_eq {s : List U8} (hword : firstWord s = ofString "echo") (rest : List U8) :
    echoArgument (s ++ 0#8 :: rest) = some (afterFirstWord s ++ 0#8 :: rest) := by
  have hsplit : s = ofString "echo" ++ s.dropWhile (· ≠ 0x20#8) := by
    rw [← hword, firstWord, List.takeWhile_append_dropWhile]
  have hdrop (l : List U8) : (ofString "echo" ++ l).drop 4 = l := rfl
  have hhead := List.head?_dropWhile_not (fun c : U8 => decide (c ≠ 0x20#8)) s
  rw [afterFirstWord, echoArgument, show s ++ 0#8 :: rest = ofString "echo" ++ (s.dropWhile (· ≠ 0x20#8) ++ 0#8 :: rest) by
    rw [← List.append_assoc, ← hsplit], hdrop]
  cases htail : s.dropWhile (· ≠ 0x20#8) with
  | nil => rfl
  | cons c tail =>
    rw [htail] at hhead
    have hc : c = 0x20#8 := by simpa using hhead
    simp [hc]

theorem afterFirstWord_sublist (s : List U8) : (afterFirstWord s).Sublist s :=
  (List.tail_sublist _).trans (List.dropWhile_sublist _)

/-- What the shell does on a line is what it answers. -/
theorem dispatch_eq (stack : ℕ → U8) {t : ShellState} {s rest : List U8} (hline : t.line = s ++ 0#8 :: rest)
    (hs : 0#8 ∉ s) (hshort : s.length < 64) :
    dispatch stack t =
      some (match answer s with
        | none => .demo
        | some out => .done (consolePutbytes t.console out)) := by
  have htest {w : String} (hw : IsWord (ofString w)) :
      strStartsWith t.line (literal w) = some (decide (firstWord s = ofString w)) := by
    rw [hline]
    exact strStartsWith_eq hw hs rest
  have hargument : 0#8 ∉ afterFirstWord s ∧ (afterFirstWord s).length < 64 := by
    have hsub := afterFirstWord_sublist s
    exact ⟨fun hmem => hs (hsub.subset hmem), hsub.length_le.trans_lt hshort⟩
  rw [dispatch, htest (by decide +kernel), Option.bind_some]
  unfold answer
  by_cases hhelp : firstWord s = ofString "help"
  · simp only [hhelp, decide_true, if_true, cmdHelp_eq, Option.map_some]
  simp only [hhelp, decide_false, if_false, Bool.false_eq_true]
  rw [htest (by decide +kernel), Option.bind_some]
  by_cases hclear : firstWord s = ofString "clear"
  · simp only [hclear, decide_true, if_true, cmdClear_eq, Option.map_some]
  simp only [hclear, decide_false, if_false, Bool.false_eq_true]
  rw [htest (by decide +kernel), Option.bind_some]
  by_cases htime : firstWord s = ofString "time"
  · simp only [htime, decide_true, if_true, cmdTime_eq, Option.map_some]
  simp only [htime, decide_false, if_false, Bool.false_eq_true]
  rw [htest (by decide +kernel), Option.bind_some]
  by_cases hdemo : firstWord s = ofString "demo"
  · simp only [hdemo, decide_true, if_true]
  simp only [hdemo, decide_false, if_false, Bool.false_eq_true]
  rw [htest (by decide +kernel), Option.bind_some]
  by_cases hecho : firstWord s = ofString "echo"
  · have hprint := cmdEcho_eq stack t.console (cstring_string hargument.1 (by omega) rest)
    simp only [hecho, decide_true, if_true]
    rw [hline, echoArgument_eq hecho, Option.bind_some, hprint, Option.map_some]
  have hprint := unknown_eq stack t.console (cstring_string hs (by omega) rest)
  simp only [hecho, decide_false, if_false, Bool.false_eq_true]
  rw [← hline] at hprint
  have hdone := congrArg (Option.map Dispatched.done) hprint
  rwa [Option.map_bind] at hdone

/-! ## The whole session -/

theorem text_split (line tail : List U8) : ∃ rest, line ++ 0#8 :: tail = text line ++ 0#8 :: rest := by
  have hwhole := List.takeWhile_append_dropWhile (p := (· ≠ 0#8)) (l := line)
  cases hdrop : line.dropWhile (· ≠ 0#8) with
  | nil =>
    rw [hdrop, List.append_nil] at hwhole
    exact ⟨tail, by rw [text, hwhole]⟩
  | cons c rest =>
    have hhead := List.head?_dropWhile_not (fun c : U8 => decide (c ≠ 0#8)) line
    rw [hdrop] at hhead
    have hc : c = 0#8 := by simpa using hhead
    refine ⟨rest ++ 0#8 :: tail, ?_⟩
    rw [hdrop, hc] at hwhole
    rw [text, ← List.cons_append, ← List.append_assoc, hwhole]

theorem zero_notMem_text (line : List U8) : 0#8 ∉ text line := fun hmem => by
  simpa using List.mem_takeWhile_imp hmem

/-- A line and its terminator at the beginning of an array. -/
theorem split_terminator {s line : List U8} (htext : s.take line.length = line) (hend : s[line.length]? = some 0#8) :
    s = line ++ 0#8 :: s.drop (line.length + 1) := by
  obtain ⟨hlt, hzero⟩ := List.getElem?_eq_some_iff.mp hend
  have hdrop := List.drop_eq_getElem_cons hlt
  rw [hzero] at hdrop
  calc s = s.take line.length ++ s.drop line.length := (List.take_append_drop _ _).symm
    _ = line ++ 0#8 :: s.drop (line.length + 1) := by
      rw [htext, hdrop]

/-- A call of `read` on an array of `n + 1` bytes. -/
theorem sysRead_line {s : List U8} {n : ℕ} {len : ℤ} (hlen : len = n + 1) (hs : s.length = n + 1) (console : Console)
    (input : List U8) :
    (consume lineKeys n [] input = none ∧ ∃ r, sysRead s len console input = .blocked r ∧
      r.console = consolePutbytes console (echoes [] input) ∧ r.s.length = n + 1) ∨
    ∃ pre line rest, consume lineKeys n [] input = some (pre, line, rest) ∧ line.length ≤ n ∧
      ∃ r tail, sysRead s len console input = .returned line.length r rest ∧
        r.console = consolePutbytes console (echoes [] pre) ∧ r.s.length = n + 1 ∧ r.s = line ++ 0#8 :: tail := by
  obtain ⟨hreturned, hblocked⟩ := @sysReadLoop_echo len n [] input ⟨s, 0, console⟩ hlen rfl
  rcases sysReadLoop_spec hlen (edits_start n s console) (by rw [hs]; exact Nat.lt_succ_self n) input with
    ⟨pre, line, rest, r, hcons, hr, hle, hsize, htext, hend, -⟩ | ⟨hcons, r, hr, hedits⟩
  · obtain ⟨pre', final, hcons', hconsole⟩ := hreturned _ _ _ hr
    cases hcons.symm.trans hcons'
    exact .inr ⟨pre, line, rest, hcons, hle, r, r.s.drop (line.length + 1), hr, hconsole, hsize.trans hs,
      split_terminator htext hend⟩
  · exact .inl ⟨hcons, r, hr, hblocked r hr, hedits.size.trans hs⟩

/-- Behind a text, a session goes on. -/
def continued (shown : List U8) (s : List U8 × Option (List U8)) : List U8 × Option (List U8) := (shown ++ s.1, s.2)

theorem session_waits {input : List U8} (h : consume lineKeys 63 [] input = none) :
    session input = (prompt ++ echoes [] input, none) := by
  rw [session.eq_def]
  split
  · rfl
  · next hsome => cases h.symm.trans hsome

theorem session_line {input pre line rest : List U8} (h : consume lineKeys 63 [] input = some (pre, line, rest)) :
    session input =
      if line = [] then continued (prompt ++ echoes [] pre) (session rest)
      else
        match answer (text line) with
        | none => (prompt ++ echoes [] pre, some rest)
        | some out => continued (prompt ++ echoes [] pre ++ out) (session rest) := by
  rw [session.eq_def]
  split
  · next hnone => cases h.symm.trans hnone
  · next hsome =>
    cases h.symm.trans hsome
    rfl

/-- The shell has shown the text of a session, and waits for a key or calls the demonstration. -/
def ends (line : List U8) (console : Console) : List U8 × Option (List U8) → ShellResult
  | (shown, none) => .waits ⟨line, consolePutbytes console shown⟩
  | (shown, some rest) => .demo ⟨line, consolePutbytes console shown⟩ rest

theorem ends_continued (line : List U8) (console : Console) (shown : List U8) (s : List U8 × Option (List U8)) :
    ends line console (continued shown s) = ends line (consolePutbytes console shown) s := by
  obtain ⟨out, rest⟩ := s
  cases rest with
  | none => rw [continued, ends, ends, consolePutbytes_append]
  | some rest => rw [continued, ends, ends, consolePutbytes_append]

section
variable {stack : ℕ → U8} {t : ShellState} {console : Console} {input rest : List U8} {r : Reading} {n : ℕ}

theorem shellLoop_waits (hprompt : say stack t.console "n7OS> " = some console)
    (hr : sysRead t.line lineMax console input = .blocked r) : shellLoop stack t input = .waits ⟨r.s, r.console⟩ := by
  rw [shellLoop.eq_def, hprompt]
  dsimp only
  split
  · next hr' =>
    cases hr.symm.trans hr'
    rfl
  · next hr' => cases hr.symm.trans hr'
  · next hr' => cases hr.symm.trans hr'

theorem shellLoop_line (hprompt : say stack t.console "n7OS> " = some console)
    (hr : sysRead t.line lineMax console input = .returned n r rest) :
    shellLoop stack t input =
      if n = 0 then shellLoop stack ⟨r.s, r.console⟩ rest
      else
        match dispatch stack ⟨r.s, r.console⟩ with
        | none => .undefined
        | some .demo => .demo ⟨r.s, r.console⟩ rest
        | some (.done console) => shellLoop stack ⟨r.s, console⟩ rest := by
  rw [shellLoop.eq_def, hprompt]
  dsimp only
  split
  · next hr' => cases hr.symm.trans hr'
  · next hr' => cases hr.symm.trans hr'
  · next hr' =>
    cases hr.symm.trans hr'
    rfl

/-- The loop shows the session, whatever is typed. -/
theorem shellLoop_session (stack : ℕ → U8) (ht : t.line.length = lineMax) (input : List U8) :
    ∃ line, line.length = lineMax ∧ shellLoop stack t input = ends line t.console (session input) := by
  induction hn : input.length using Nat.strong_induction_on generalizing input t with
  | _ n ih =>
    have hprompt : say stack t.console "n7OS> " = some (consolePutbytes t.console prompt) :=
      say_eq stack t.console (plain_ofList rfl)
    have hlen : (lineMax : ℤ) = ((63 : ℕ) : ℤ) + 1 := rfl
    rcases sysRead_line hlen ht (consolePutbytes t.console prompt) input with
      ⟨hcons, r, hr, hconsole, hsize⟩ | ⟨pre, line, rest, hcons, hle, r, tail, hr, hconsole, hsize, hline⟩
    · refine ⟨r.s, hsize, ?_⟩
      rw [shellLoop_waits hprompt hr, session_waits hcons, ends, hconsole, consolePutbytes_append]
    · have hrest : rest.length < n := hn ▸ sysRead_rest (show (1 : ℤ) < lineMax by decide) hr
      rw [← consolePutbytes_append] at hconsole
      rw [shellLoop_line hprompt hr, session_line hcons]
      by_cases hempty : line = []
      · obtain ⟨line', hline', hloop⟩ := ih rest.length hrest (t := ⟨r.s, r.console⟩) hsize rest rfl
        refine ⟨line', hline', ?_⟩
        rw [if_pos (List.length_eq_zero_iff.mpr hempty), if_pos hempty, hloop, ends_continued, hconsole]
      · obtain ⟨rest', hsplit⟩ := text_split line tail
        have htext : (text line).length < 64 :=
          ((List.takeWhile_sublist _).length_le.trans hle).trans_lt (by decide)
        have hdispatch := dispatch_eq stack (t := ⟨r.s, r.console⟩) (hline.trans hsplit) (zero_notMem_text line) htext
        rw [if_neg (mt List.length_eq_zero_iff.mp hempty), if_neg hempty, hdispatch]
        cases hanswer : answer (text line) with
        | none => exact ⟨r.s, hsize, by rw [ends, hconsole]⟩
        | some out =>
          obtain ⟨line', hline', hloop⟩ :=
            ih rest.length hrest (t := ⟨r.s, consolePutbytes r.console out⟩) hsize rest rfl
          refine ⟨line', hline', ?_⟩
          dsimp only
          rw [hloop, ends_continued, hconsole, ← consolePutbytes_append]

/-- From its start, for every sequence of keys, the shell shows the text of the session; it never does
what is undefined. -/
theorem shell_session (stack : ℕ → U8) {line : List U8} (hline : line.length = lineMax) (console : Console)
    (input : List U8) :
    ∃ line', shell stack line console input = ends line' console (continued banner (session input)) := by
  have hbanner := say_eq (s := "Bienvenue dans n7sh. Tapez 'help' pour la liste des commandes.\n") stack console
    (plain_ofList rfl)
  obtain ⟨line', -, hloop⟩ := shellLoop_session stack (t := ⟨line, consolePutbytes console banner⟩) hline input
  refine ⟨line', ?_⟩
  rw [shell, hbanner, ends_continued]
  exact hloop

/-- `echo hi` and an enter. -/
theorem shell_session_echo :
    ∃ line', shell (fun _ => 0#8) (List.replicate 64 0#8) (.boot (fun _ => 0) ⟨0, fun _ => 0⟩) (ofString "echo hi\r") =
      .waits ⟨line', consolePutbytes (.boot (fun _ => 0) ⟨0, fun _ => 0⟩)
        (banner ++ ofString "n7OS> echo hi\nhi\nn7OS> ")⟩ := by
  have hsession : continued banner (session (ofString "echo hi\r")) =
      (banner ++ ofString "n7OS> echo hi\nhi\nn7OS> ", none) := by decide +kernel
  obtain ⟨line', hshell⟩ := shell_session (fun _ => 0#8) (List.length_replicate : (List.replicate 64 0#8).length = lineMax)
    (.boot (fun _ => 0) ⟨0, fun _ => 0⟩) (ofString "echo hi\r")
  rw [hsession] at hshell
  exact ⟨line', hshell⟩

end

end N7OS.Shell
