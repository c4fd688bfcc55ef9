import SqlLineage.Definition
import SqlLineage.Token

/-!
# Notices

Reading a script never fails. Where something could not be read or was given up, a notice says so; it
changes nothing else. The texts of all notices of the library stand here.
-/

namespace SqlLineage
set_option autoImplicit false

inductive Notice.Kind where
  /-- A statement that defines nothing. -/
  | skippedStatement
  /-- A parenthesis that nothing closes. -/
  | unbalancedParentheses
  /-- A query body without `SELECT`. -/
  | unparsedBody
  /-- A table that is referred to, but neither defined nor used by column. -/
  | unknownSchema
  /-- A definition inside a column block that was given up. -/
  | droppedDefinition
  /-- A name that was defined again. -/
  | redefinition
deriving DecidableEq

def Notice.Kind.label : Notice.Kind → String
  | .skippedStatement => "SKIPPED_STATEMENT"
  | .unbalancedParentheses => "UNBALANCED_PARENTHESES"
  | .unparsedBody => "UNPARSED_BODY"
  | .unknownSchema => "UNKNOWN_SCHEMA"
  | .droppedDefinition => "DROPPED_DEFINITION"
  | .redefinition => "REDEFINITION"

/-- A notice; `subject` is the table or statement it is about. -/
structure Notice where
  kind : Notice.Kind
  subject : String
  message : String
deriving DecidableEq

namespace Notice

def text (n : Notice) : String :=
  "[" ++ n.kind.label ++ "] " ++ n.subject ++ ": " ++ n.message

def skipped (statement : String) : Notice :=
  ⟨.skippedStatement, statement, "not a CREATE TABLE, CREATE VIEW or query statement"⟩

def unclosedBlock (table : String) : Notice :=
  ⟨.unbalancedParentheses, table, "column block is not closed"⟩

def unclosedCte (owner cte : String) : Notice :=
  ⟨.unbalancedParentheses, owner, "body of CTE `" ++ cte ++ "` is not closed"⟩

def noSelect (query : String) : Notice :=
  ⟨.unparsedBody, query, "query body has no SELECT"⟩

def unobserved (table : String) : Notice :=
  ⟨.unknownSchema, table, "referenced but never defined, and no column usage was observed"⟩

def malformedKey (table : String) (definition : List Token) : Notice :=
  ⟨.droppedDefinition, table, "malformed foreign key `" ++ Token.spelled definition ++ "`"⟩

def noColumn (table : String) (definition : List Token) : Notice :=
  ⟨.droppedDefinition, table,
    "`" ++ Token.spelled definition ++ "` is not a column definition"⟩

def replaced (old : Definition) : Notice :=
  ⟨.redefinition, old.name,
    old.kind.label ++ " `" ++ old.name ++ "` replaced by a later definition"⟩

end Notice
end SqlLineage
