import Lockstep.Numeral.Integer
import Lockstep.Registry.Basic
import Lockstep.Text.Blank
import Lockstep.Text.Quoted

/- Settings from variables.

   Addresses are taken as they are. Numbers may have blanks around them; a number that does not parse
   is an error that shows the text as it was given. A limit of zero milliseconds is no limit. -/
namespace Lockstep.Settings

inductive Error where
  | invalidValue (variableName text : String)
deriving DecidableEq, Repr

def Error.message : Error → String
  | invalidValue variableName text => s!"invalid value for {variableName}: {Text.quoted text}"

def bindVariable : String := "FRAMELOCK_BIND"
def clientsVariable : String := "FRAMELOCK_CLIENTS"
def serverVariable : String := "FRAMELOCK_SERVER"
def timeoutVariable : String := "FRAMELOCK_TIMEOUT_MS"
def connectTimeoutVariable : String := "FRAMELOCK_CONNECT_TIMEOUT_MS"

/-- Settings of a server; times are in milliseconds. -/
structure Server where
  bindAddress : String
  expectedClients : Nat
  barrierTimeout : Option Nat
  socketBufferSize : Option Nat
deriving DecidableEq, Repr

/-- Settings of a client; times are in milliseconds. -/
structure Client where
  serverAddress : String
  connectTimeout : Option Nat
  barrierTimeout : Option Nat
deriving DecidableEq, Repr

/-- What a session does when a barrier fails. -/
inductive OnFailure where
  | abort | report
deriving DecidableEq, Repr

/-- What stands behind a session's barriers. -/
inductive Role where
  | server (settings : Server)
  | client (settings : Client)
  | standalone
deriving DecidableEq, Repr

/-- Settings of a session. -/
structure Session where
  role : Role
  registryName : String
  onFailure : OnFailure
deriving DecidableEq, Repr

def Server.initial : Server := ⟨"0.0.0.0:3490", 1, none, some (256 * 1024)⟩

def Client.initial : Client := ⟨"127.0.0.1:3490", some 30000, none⟩

def Session.initial : Session := ⟨.standalone, Registry.defaultName, .abort⟩

/-- A 64-bit number in a variable; nothing when the variable is not set. -/
def number (lookup : String → Option String) (variableName : String) :
    Except Error (Option Nat) :=
  match lookup variableName with
  | none => .ok none
  | some text =>
    match Numeral.natural? (2 ^ 64) (Text.stripBy Text.isBlank text.toList) with
    | some n => .ok (some n)
    | none => .error (.invalidValue variableName text)

/-- A limit of time; zero is none. -/
def limit (ms : Nat) : Option Nat := if ms = 0 then none else some ms

/-- A limit of time in a variable, or another one when the variable is not set. -/
def limitOr (lookup : String → Option String) (variableName : String) (fallback : Option Nat) :
    Except Error (Option Nat) :=
  match number lookup variableName with
  | .error e => .error e
  | .ok none => .ok fallback
  | .ok (some ms) => .ok (limit ms)

def Server.ofVariables (lookup : String → Option String) : Except Error Server :=
  match number lookup clientsVariable with
  | .error e => .error e
  | .ok clients =>
    match limitOr lookup timeoutVariable Server.initial.barrierTimeout with
    | .error e => .error e
    | .ok barrierTimeout =>
      .ok { Server.initial with
        bindAddress := (lookup bindVariable).getD Server.initial.bindAddress
        expectedClients := clients.getD Server.initial.expectedClients
        barrierTimeout }

def Client.ofVariables (lookup : String → Option String) : Except Error Client :=
  match limitOr lookup connectTimeoutVariable Client.initial.connectTimeout with
  | .error e => .error e
  | .ok connectTimeout =>
    match limitOr lookup timeoutVariable Client.initial.barrierTimeout with
    | .error e => .error e
    | .ok barrierTimeout =>
      .ok { serverAddress := (lookup serverVariable).getD Client.initial.serverAddress
            connectTimeout
            barrierTimeout }

end Lockstep.Settings
