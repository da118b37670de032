/-
Implet/Session.lean

Sessions.  A session checks each entry and then runs it, and keeps what both
leave behind for the entries that follow.  An entry that is rejected is not run
and leaves the session as it was; an entry that fails while it runs keeps what
it did before.
-/
import Implet.Reading.Entry
import Implet.Running.Exec
import Implet.Syntax.Outline
import Implet.Checking.Checker

namespace Implet

/-- Why an entry has no outcome. -/
inductive SessionError where
  | parse (e : ParseError)
  | type (e : TypeError)
  | runtime (e : RuntimeError)
  deriving DecidableEq

namespace SessionError

/-- The message as it is shown. -/
def report : SessionError → String
  | parse e => e.report
  | type e => e.report
  | runtime e => e.report

end SessionError

/-- What an entry yields: a type for a bare expression or a function, and a
value for a bare expression. -/
structure Outcome where
  type : Option Ty
  value : Option Value

/-- A global as both the checker and the store know it. -/
structure Binding where
  name : String
  type : Ty
  value : Option Value

namespace Binding

/-- The text of a binding. -/
def text (b : Binding) : String :=
  b.name ++ " : " ++ b.type.text
    ++ (match b.value with
        | some value => " = " ++ value.text
        | none => "")

end Binding

/-- A checker and a store that see the same entries. -/
structure Session where
  checker : Checker
  store : Store

namespace Session

/-- A session before its first entry. -/
def initial : Session := ⟨.initial, .initial⟩

instance : Inhabited Session := ⟨initial⟩

/-- Check an entry and run it.  There is no answer if the fuel does not suffice. -/
def runEntry (fuel : Nat) (s : Session) (entry : Entry) :
    Option (Except SessionError Outcome × Session) :=
  match s.checker.run entry with
  | (.error e, checker) => some (.error (.type e), { s with checker })
  | (.ok type, checker) =>
    match entry.run fuel Store.base s.store with
    | none => none
    | some (.ok value, store) => some (.ok ⟨type, value⟩, ⟨checker, store⟩)
    | some (.error e, store) => some (.error (.runtime e), ⟨checker, store⟩)

/-- Read an entry, check it and run it. -/
def run (fuel : Nat) (s : Session) (source : String) :
    Option (Except SessionError Outcome × Session) :=
  match Entry.parse source with
  | .ok entry => s.runEntry fuel entry
  | .error e => some (.error (.parse e), s)

/-- The environment of the globals. -/
def env (s : Session) : Environment := s.store.env Store.base

/-- The value of a global. -/
def valueOf (s : Session) (name : String) : Option Value := s.env.get? name

/-- The type of a global. -/
def typeOf (name : String) : StateM Session (Option Ty) := fun s =>
  let (type, checker) := Checker.typeOf name s.checker
  (type, { s with checker })

/-- The globals with their types and values, sorted by name. -/
def globals : StateM Session (List Binding) := fun s =>
  let (types, checker) := Checker.globals s.checker
  (types.map fun (name, type) => ⟨name, type, s.valueOf name⟩, { s with checker })

/-- The number of frames of the environment of the globals. -/
def depth (s : Session) : Nat := s.env.depth

end Session

end Implet
