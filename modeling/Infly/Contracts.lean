import Mathlib.Data.List.Basic

/-! # Error codes, requests, results and task records

`infly/core/errors.py` and `infly/core/contracts.py`. Mappings whose values nobody
inspects are association lists of texts.
-/
namespace Contracts

inductive ErrorCode where
  | ok | notFound | handlerNotFound | overloaded | timeout | workerUnavailable
  | invalidArgument | invalidConfiguration | invalidState | invalidRequest | internalError
  deriving DecidableEq, Repr

structure PlatformError where
  code : ErrorCode
  message : String
  deriving DecidableEq, Repr

/-- The exceptions that the modelled code raises or lets through. -/
inductive Raised where
  | platform (e : PlatformError)
  | valueError (message : String)
  | assertionError (message : String)
  | attributeError (message : String)
  | keyError (message : String)
  | other (message : String)
  deriving DecidableEq, Repr

def Raised.text : Raised → String
  | .platform e => e.message
  | .keyError m => "'" ++ m ++ "'"
  | .valueError m | .assertionError m | .attributeError m | .other m => m

/-- What `join` raises in the thread itself. -/
def joinCurrent : Raised := .other "cannot join current thread"

abbrev TaskId := String
abbrev Mapping := List (String × String)

structure TaskRequest where
  handlerName : String
  taskId : TaskId
  metadata : Mapping := []
  deriving DecidableEq, Repr

structure TaskResult where
  taskId : TaskId
  output : Mapping := []
  diagnostics : Mapping := []
  deriving DecidableEq, Repr

inductive TaskStatus where
  | pending | running | completed | failed
  deriving DecidableEq, Repr

structure TaskRecord where
  taskId : TaskId
  request : TaskRequest
  status : TaskStatus := .pending
  result : Option TaskResult := none
  errorCode : Option ErrorCode := none
  errorMessage : Option String := none
  deriving DecidableEq, Repr

structure TaskQueryResponse where
  taskId : TaskId
  status : TaskStatus
  result : Option TaskResult := none
  errorCode : Option ErrorCode := none
  errorMessage : Option String := none
  deriving DecidableEq, Repr

def TaskQueryResponse.fromRecord (r : TaskRecord) : TaskQueryResponse :=
  ⟨r.taskId, r.status, r.result, r.errorCode, r.errorMessage⟩

end Contracts
