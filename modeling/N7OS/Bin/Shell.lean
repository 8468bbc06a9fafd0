import N7OS.Lib.PrintfRuns
import N7OS.Syscall.Transcript

/-! # The shell

`bin/shell.c` on the characters that `kgetch` will deliver. The shell runs until it waits in
`read`, or until it calls `demo`, which is not part of this model.
-/
namespace N7OS.Shell
open User

def lineMax : ℕ := 64

/-- Is the first word of `s` this one? A string literal is given with its terminator. -/
def strStartsWith (s : List U8) : List U8 → Option Bool
  | [] => none
  | p :: pre =>
    match s with
    | [] => none
    | c :: s => if p = 0#8 then some (c = 0#8 || c = 0x20#8) else if c ≠ p then some false else strStartsWith s pre

def literal (s : String) : List U8 := ofString s ++ [0#8]

/-- The array `line` and the console. -/
structure ShellState where
  line : List U8
  console : Console

variable (stack : ℕ → U8)

/-- `printf` of a literal without arguments. -/
def say (console : Console) (s : String) : Option Console := printf stack console [] (literal s)

def cmdHelp (console : Console) : Option Console :=
  ["Commandes disponibles :\n", "  help     liste des commandes\n", "  clear    efface l'ecran\n",
    "  time     etat du systeme\n", "  echo X   reaffiche X\n",
    "  demo     menu de demonstration des etapes\n"].foldlM (say stack) console

/-- `"\f"`. -/
def cmdClear (console : Console) : Option Console := printf stack console [] [formFeed, 0#8]

def cmdTime (console : Console) : Option Console := say stack console "Voir l'horloge en haut a droite (HH:MM:SS).\n"

def cmdEcho (console : Console) (arg : List U8) : Option Console :=
  printf stack console [.string arg] (literal "%s\n")

/-- `line + 4`, and past a space. -/
def echoArgument (line : List U8) : Option (List U8) :=
  (line.drop 4).head?.map fun c => if c = 0x20#8 then (line.drop 4).tail else line.drop 4

/-- What a command leads to. -/
inductive Dispatched
  | done (console : Console)
  | demo

/-- The chain of tests on the line. -/
def dispatch (t : ShellState) : Option Dispatched :=
  (strStartsWith t.line (literal "help")).bind fun help =>
    if help then (cmdHelp stack t.console).map .done
    else (strStartsWith t.line (literal "clear")).bind fun clear =>
      if clear then (cmdClear stack t.console).map .done
      else (strStartsWith t.line (literal "time")).bind fun time =>
        if time then (cmdTime stack t.console).map .done
        else (strStartsWith t.line (literal "demo")).bind fun demo =>
          if demo then some .demo
          else (strStartsWith t.line (literal "echo")).bind fun echo =>
            if echo then (echoArgument t.line).bind fun arg => (cmdEcho stack t.console arg).map .done
            else
              (printf stack t.console [.string t.line] (literal "Commande inconnue : %s\n")).bind fun console =>
                (say stack console "Tapez 'help' pour la liste.\n").map .done

inductive ShellResult
  | waits (t : ShellState)
  | demo (t : ShellState) (rest : List U8)
  | undefined

/-- `while (1)`. -/
def shellLoop (t : ShellState) (input : List U8) : ShellResult :=
  match say stack t.console "n7OS> " with
  | none => .undefined
  | some console =>
    match _h : sysRead t.line lineMax console input with
    | .blocked r => .waits ⟨r.s, r.console⟩
    | .fault => .undefined
    | .returned n r rest =>
      if n = 0 then shellLoop ⟨r.s, r.console⟩ rest
      else
        match dispatch stack ⟨r.s, r.console⟩ with
        | none => .undefined
        | some .demo => .demo ⟨r.s, r.console⟩ rest
        | some (.done console) => shellLoop ⟨r.s, console⟩ rest
termination_by input.length
decreasing_by all_goals exact sysRead_rest (show (1 : ℤ) < lineMax by decide) ‹_›

/-- `line` holds whatever was on the stack. -/
def shell (line : List U8) (console : Console) (input : List U8) : ShellResult :=
  match say stack console "Bienvenue dans n7sh. Tapez 'help' pour la liste des commandes.\n" with
  | none => .undefined
  | some console => shellLoop stack ⟨line, console⟩ input

end N7OS.Shell
