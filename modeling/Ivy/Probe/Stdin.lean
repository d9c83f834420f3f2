import Ivy.Lib.Tokens
import Ivy.Registry.Update
import Ivy.Protocol.Scan

/-! `ivyprobe.c`: the commands and the messages that are read from the standard input. -/
namespace Ivy.Probe
open Tokens

structure Applications where
  list : List (ℕ × Text)
  nodup : (list.map (·.1)).Nodup

inductive Act
  | ivySendDieMsg (app : ℕ)
  | ivySendDirectMsg (app : ℕ) (id : ℤ) (msg : Text)
  | ivySendPing (app : ℕ)
  | ivyBindMsg (regexp : Text)
  /-- The number of peers is printed. -/
  | ivySendMsg (message : Text)
  | ivySetBindCallback (set : Bool)
  | printf (text : Text)
  /-- The host of the application is printed too. -/
  | printHost (name : Text) (app : ℕ)
  | printHelp
  | exit
  /-- `IvyChannelRemove` and `IvyStop` -/
  | stop
  deriving DecidableEq, Repr

/-- The first call on a string, and the later ones on what is left of it. -/
def strtok (separators : String) (s : Text) : Option (Text × Text) := token ((ascii separators).contains ·) s

def ivyGetApplication (apps : Applications) (name : Text) : Option ℕ :=
  (apps.list.find? fun app => app.2 = name).map (·.1)

/-- `strcat` to an array of so many bytes. -/
def strcat (size : ℕ) (dest src : Text) : Option Text :=
  if dest.length + src.length < size then some (dest ++ src) else none

def ivyGetApplicationList (apps : Applications) (sep : Text) : Option Text :=
  apps.list.foldlM (fun applist app => (strcat 4096 applist app.2).bind (strcat 4096 · sep)) []

def atoi (s : Text) : ℤ := ((scanInt s).map (·.1)).getD 0

def chop (arg : Text) : Text := if arg.getLast? = some newline then arg.dropLast else arg

section
variable {Code : Type*} (compile : Registry.Compile Code) (apps : Applications)

def noApplication (arg : Text) : Act := .printf (ascii "No Application " ++ arg ++ ascii "!!!\n")

/-- The commands that look for an application and act on it. -/
def onApplication (act : Text → ℕ → List Act) (s : Text) : List Act :=
  match strtok " \n" s with
  | none => []
  | some (arg, _) =>
    match ivyGetApplication apps arg with
    | none => [noApplication arg]
    | some app => act arg app

def kill (arg : Text) : List Act :=
  match ivyGetApplication apps arg with
  | none => [noApplication arg]
  | some app => [.printf (ascii "Killing '" ++ arg ++ ascii "'...\n"), .ivySendDieMsg app]

def dieAll : Option (List Act) :=
  (ivyGetApplicationList apps (ascii "#")).map fun applist =>
    (tokens ((ascii "#").contains ·) applist).flatMap (kill apps)

def bind (s : Text) : List Act :=
  match strtok "'" s with
  | none => []
  | some (arg, _) =>
    let arg := chop arg
    match compile arg with
    | .error (_, errbuf) =>
      [.printf (ascii "Error compiling '" ++ arg ++ ascii "', " ++ errbuf ++ ascii ", not bound\n")]
    | .ok _ => [.ivyBindMsg arg]

/-- An id or a message that is missing is a null pointer. -/
def direct (s : Text) : Option (List Act) :=
  match strtok " \n" s with
  | none => some []
  | some (arg, s) =>
    match ivyGetApplication apps arg with
    | none => some [noApplication arg]
    | some app =>
      (strtok " " s).bind fun id => (strtok "'" id.2).map fun msg =>
        [.ivySendDirectMsg app (atoi id.1) (chop msg.1)]

/-- A line that begins with a dot. The second value is `fbindcallback`. -/
def command (fbindcallback : Bool) (line : Text) : Option (List Act × Bool) :=
  let keep (acts : List Act) := (acts, fbindcallback)
  (strtok ".: \n" line).bind fun (cmd, s) =>
    if cmd = ascii "die" then some (keep (onApplication apps (fun _ app => [.ivySendDieMsg app]) s))
    else if cmd = ascii "dieall-yes-i-am-sure" then (dieAll apps).map keep
    else if cmd = ascii "bind" then some (keep (bind compile s))
    else if cmd = ascii "where" then some (keep (onApplication apps (fun arg app => [.printHost arg app]) s))
    else if cmd = ascii "direct" then (direct apps s).map keep
    else if cmd = ascii "who" then (ivyGetApplicationList apps (ascii ",")).map fun applist =>
      keep [.printf (ascii "Apps: " ++ applist ++ ascii "\n")]
    else if cmd = ascii "ping" then some (keep (onApplication apps (fun _ app => [.ivySendPing app]) s))
    else if cmd = ascii "help" then some (keep [.printHelp])
    else if cmd = ascii "showbind" then some ([.ivySetBindCallback (!fbindcallback)], !fbindcallback)
    else if cmd = ascii "quit" then some (keep [.exit])
    else some (keep [])

/-- One call on what `fgets` returns; `none` is a null pointer that is passed on or a buffer that is
overrun. -/
def handleStdin (fbindcallback : Bool) : Option Text → Option (List Act × Bool)
  | none => some ([.stop], fbindcallback)
  | some line =>
    if line.head? = some 46 then command compile apps fbindcallback line
    else (strtok "\n" line).map fun cmd => ([.ivySendMsg cmd.1], fbindcallback)

end

end Ivy.Probe
