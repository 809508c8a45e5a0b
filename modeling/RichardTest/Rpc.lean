import RichardTest.RemoteCall
import Mathlib.Order.Basic

namespace RichardTest.Rpc

-- What the two sides throw themselves, and whatever a method of the service throws.
inductive Throwable where
  | noSuchMethodException (methodName : String)
  | nullPointerException
  | arrayIndexOutOfBoundsException
  | classCastException
  | invocationTargetException (target : Throwable)
  | undeclaredThrowableException (undeclared : Throwable)
  | other (message : String) (checked : Bool)
deriving DecidableEq, Repr

-- Neither a RuntimeException nor an Error.
def Throwable.checked : Throwable → Bool
  | .noSuchMethodException _ => true
  | .invocationTargetException _ => true
  | .other _ checked => checked
  | _ => false

-- What is sent as an object. All of it can be serialized.
inductive Obj where
  | null
  | string (s : String)
  | throwable (t : Throwable)
  | other (n : Nat)
deriving DecidableEq, Repr

-- `(String)o`
def castToString : Obj → Except Throwable (Option String)
  | .null => .ok none
  | .string s => .ok (some s)
  | _ => .error .classCastException

-- What a client sends. The arguments of a method without parameters are null.
structure Request where
  methodName : String
  parameterTypes : List String
  arguments : Option (List Obj)

-- A method of the service: the frame that it begins in, and one turn of a thread in a frame, on the state of
-- the service. Several threads may run it at a time.
structure Method (φ σ : Type) where
  enter : List Obj → φ
  turn : φ → σ → Option ((φ ⊕ Except Throwable Obj) × σ)
  declares : Throwable → Bool

-- `service.getClass().getMethod`.
abbrev Service (φ σ : Type) := String → List String → Option (Method φ σ)

variable {φ σ κ : Type}

-- `arguments[0]`
def firstArgument : Option (List Obj) → Except Throwable Obj
  | none => .error .nullPointerException
  | some [] => .error .arrayIndexOutOfBoundsException
  | some (a :: _) => .ok a

-- The two strings of the line that the server prints, which it casts inside of the try.
def printed (arguments : Option (List Obj)) (result : Obj) : Except Throwable (Option String × Option String) := do
  let argument ← firstArgument arguments
  let name ← castToString argument
  let value ← castToString result
  return (name, value)

-- The object that the server writes for what the method has returned or thrown.
def answer (arguments : Option (List Obj)) : Except Throwable Obj → Obj
  | .error t => .throwable (.invocationTargetException t)
  | .ok result =>
      match printed arguments result with
      | .error t => .throwable t
      | .ok _ => result

-- `InvocationHandler.invoke` behind `readObject`.
def invoke : Obj → Except Throwable Obj
  | .throwable t => .error t
  | result => .ok result

-- What the proxy makes of an exception that the method of the interface does not declare.
def proxied (method : Method φ σ) (t : Throwable) : Throwable :=
  if t.checked && !method.declares t then .undeclaredThrowableException t else t

-- What the caller of the proxy sees of the object that was read.
def outcome (method : Method φ σ) (reply : Obj) : Except Throwable Obj :=
  (invoke reply).mapError (proxied method)

-- The checks of `export`, with the texts of the exceptions.
def exportChecks (service : Option (Service φ σ)) (port : Int) : Except String (Service φ σ) := do
  match service with
  | none => .error "service instance == null"
  | some service =>
      if port ≤ 0 ∨ 65535 < port then .error ("Invalid port " ++ toString port) else .ok service

structure Class where
  name : String
  isInterface : Bool

-- The checks of `refer`.
def referChecks (interfaceClass : Option Class) (host : Option String) (port : Int) :
    Except String (Class × String) :=
  match interfaceClass with
  | none => .error "Interface class == null"
  | some c =>
      if ¬c.isInterface then .error ("The " ++ c.name ++ " must be interface class!")
      else
        match host with
        | none => .error "Host == null!"
        | some host =>
            if host.length = 0 then .error "Host == null!"
            else if port ≤ 0 ∨ 65535 < port then .error ("Invalid port " ++ toString port)
            else .ok (c, host)

-- `HelloServiceImpl.hello`, which takes a string or null.
def hello : Method (List Obj) σ where
  enter arguments := arguments
  turn arguments s :=
    match arguments with
    | [.string name] => some (.inr (.ok (.string ("Hello " ++ name))), s)
    | _ => some (.inr (.ok (.string "Hello null")), s)
  declares _ := false

def helloServiceImpl : Service (List Obj) σ := fun methodName parameterTypes =>
  if methodName = "hello" ∧ parameterTypes = ["java.lang.String"] then some hello else none

section Calls

variable (service : Service φ σ) (request : κ → Request)

def methodOf (k : κ) : Option (Method φ σ) := service (request k).methodName (request k).parameterTypes

-- Each call in a thread of its own, on the service itself.
def code : RemoteCall.Code κ φ σ (Except Throwable Obj) where
  enter k := (methodOf service request k).map fun method => method.enter ((request k).arguments.getD [])
  turn k frame s := (methodOf service request k).bind fun method => method.turn frame s

-- The exported service: a connection and a thread for each call, and nothing that keeps the threads apart.
def server : RemoteCall.Server κ φ σ (Except Throwable Obj) Obj where
  toCode := code service request
  refuse k := .throwable (.noSuchMethodException (request k).methodName)
  answer k := answer (request k).arguments

end Calls

end RichardTest.Rpc
