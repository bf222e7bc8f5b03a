import SchemaCodec.Report.Tree

/-!
Faults as a flat list: an issue for each leaf, with the path that leads to it. The members of a union
add nothing to the path.
-/

namespace SchemaCodec

inductive PathStep where
  | index (position : Nat)
  | key (key : PropertyKey)
deriving DecidableEq, Repr

def PathStep.text : PathStep → String
  | .index position => Number.integerText position
  | .key name => name.text

inductive IssueKind where
  | type
  | forbidden
  | missing
  | unexpected
deriving DecidableEq, Repr

namespace IssueKind

def word : IssueKind → String
  | .type => "type"
  | .forbidden => "forbidden"
  | .missing => "missing"
  | .unexpected => "unexpected"

end IssueKind

structure Issue where
  path : List PathStep
  kind : IssueKind
  message : String
deriving DecidableEq, Repr

namespace Issue

def pathText (issue : Issue) : String :=
  String.join (issue.path.map fun step => "/" ++ step.text)

/-- The path and the message; at the root the message alone. -/
def text (issue : Issue) : String :=
  if issue.path.isEmpty then issue.message else issue.pathText ++ " " ++ issue.message

end Issue

mutual

def Fault.issuesAt (path : List PathStep) : Fault → List Issue
  | .type expected actual message => [⟨path, .type, expected.describe actual message⟩]
  | .forbidden => [⟨path, .forbidden, "is forbidden"⟩]
  | .missing => [⟨path, .missing, "is missing"⟩]
  | .unexpected _ => [⟨path, .unexpected, "is unexpected"⟩]
  | .index position faults => faults.issuesAt (path ++ [.index position])
  | .key key faults => faults.issuesAt (path ++ [.key key])
  | .unionMember faults => faults.issuesAt path

def Faults.issuesAt (path : List PathStep) : Faults → List Issue
  | .single fault => fault.issuesAt path
  | .cons fault rest => fault.issuesAt path ++ rest.issuesAt path

end

namespace Faults

def issues (faults : Faults) : List Issue :=
  faults.issuesAt []

def flatReport (faults : Faults) : String :=
  String.intercalate "\n" (faults.issues.map Issue.text)

def summary (faults : Faults) : String :=
  String.intercalate ", " (faults.issues.map Issue.text)

end Faults

inductive ReportFormat where
  | tree
  | flat
deriving DecidableEq, Repr

def ReportFormat.ofWord? : String → Option ReportFormat
  | "tree" => some .tree
  | "flat" => some .flat
  | _ => none

def Faults.report (faults : Faults) : ReportFormat → String
  | .tree => faults.drawing
  | .flat => faults.flatReport

end SchemaCodec
