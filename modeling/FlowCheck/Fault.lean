/-! # Faults

Why a whole validation could not be carried out. What is wrong with a single expression is never a fault. -/

namespace FlowCheck

/-- What is wrong with a workflow document: a code, a message and, where one is to blame, an activity. -/
structure DocumentFault where
  code : String
  message : String
  node : Option String
  deriving DecidableEq, Repr, Inhabited

/-- The ways to learn what a module exports. -/
inductive ReferenceSource where
  /-- The export table that the module carries. -/
  | metadata
  /-- The export table in the file that the module was loaded from. -/
  | file
  deriving DecidableEq, Repr, Inhabited

/-- What a module lacks when a way to learn its exports is closed. -/
def ReferenceSource.lacking : ReferenceSource → String
  | .metadata => "export metadata"
  | .file => "backing file"

/-- Why a validation could not be carried out. -/
inductive Fault where
  /-- The workflow document does not make a batch of expressions. -/
  | document (fault : DocumentFault)
  /-- The language's parser gave no tree. -/
  | parser (language reason : String)
  /-- The language's compiler gave no diagnostics. -/
  | compiler (language reason : String)
  /-- The file of a module cannot be read, or holds no export table. -/
  | moduleFile (path : String)
  /-- A module does not offer a way to learn its exports. -/
  | noReference (moduleName : String) (source : ReferenceSource)
  /-- The configuration is not one. -/
  | config
  deriving DecidableEq, Repr, Inhabited

namespace DocumentFault

/-- The fault as a text: `[code] message`, with the activity when there is one. -/
def text (fault : DocumentFault) : String :=
  "[" ++ fault.code ++ "] " ++ fault.message ++
    match fault.node with
    | some node => " (node '" ++ node ++ "')"
    | none => ""

end DocumentFault

namespace Fault

/-- The fault as a text. For a file and a configuration it names what could not be read, and leaves the
reason, which follows the colon, to whoever read it. -/
def text : Fault → String
  | .document fault => fault.text
  | .parser language reason => language ++ " parser failed: " ++ reason
  | .compiler language reason => language ++ " compilation failed: " ++ reason
  | .moduleFile path => "module file '" ++ path ++ "': "
  | .noReference moduleName source => "module '" ++ moduleName ++ "' has no " ++ source.lacking
  | .config => "invalid validator config: "

/-- The code of a fault in a document; no other fault has one. -/
def code? : Fault → Option String
  | .document fault => some fault.code
  | _ => none

/-- The activity that a fault in a document blames. -/
def node? : Fault → Option String
  | .document fault => fault.node
  | _ => none

end Fault

end FlowCheck
