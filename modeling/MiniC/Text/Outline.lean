import MiniC.Text.Quoted

namespace MiniC

inductive Outline where
  | word (text : String)
  /-- A name with arguments in parentheses. -/
  | call (name : String) (args : List Outline)
  /-- A name with named fields in braces. -/
  | record (name : String) (fields : List (String × Outline))
  | list (items : List Outline)

namespace Outline

def ofString (text : String) : Outline := .word (quoted text)

def ofNat (n : Nat) : Outline := .word (toString n)

mutual

def writeInline (out : String) : Outline → String
  | .word text => out ++ text
  | .call name [] => out ++ name
  | .call name (a :: args) => writeInlineItems (writeInline (out ++ name ++ "(") a) args ++ ")"
  | .record name [] => out ++ name
  | .record name ((field, a) :: fields) =>
    writeInlineFields (writeInline (out ++ name ++ " \x7b " ++ field ++ ": ") a) fields ++ " \x7d"
  | .list [] => out ++ "[]"
  | .list (a :: items) => writeInlineItems (writeInline (out ++ "[") a) items ++ "]"

def writeInlineItems (out : String) : List Outline → String
  | [] => out
  | a :: items => writeInlineItems (writeInline (out ++ ", ") a) items

def writeInlineFields (out : String) : List (String × Outline) → String
  | [] => out
  | (field, a) :: fields => writeInlineFields (writeInline (out ++ ", " ++ field ++ ": ") a) fields

end

def indent (level : Nat) : String := String.ofList (List.replicate (4 * level) ' ')

mutual

/-- Appends the form with a line for every part to `out`. The line it begins on is indented by
`level` levels already. -/
def writeLines (level : Nat) (out : String) : Outline → String
  | .word text => out ++ text
  | .call name [] => out ++ name
  | .call name (a :: args) =>
    writeItemLines (level + 1) (out ++ name ++ "(\n") (a :: args) ++ indent level ++ ")"
  | .record name [] => out ++ name
  | .record name (f :: fields) =>
    writeFieldLines (level + 1) (out ++ name ++ " \x7b\n") (f :: fields) ++ indent level ++ "\x7d"
  | .list [] => out ++ "[]"
  | .list (a :: items) =>
    writeItemLines (level + 1) (out ++ "[\n") (a :: items) ++ indent level ++ "]"

def writeItemLines (level : Nat) (out : String) : List Outline → String
  | [] => out
  | a :: items => writeItemLines level (writeLines level (out ++ indent level) a ++ ",\n") items

def writeFieldLines (level : Nat) (out : String) : List (String × Outline) → String
  | [] => out
  | (field, a) :: fields =>
    writeFieldLines level (writeLines level (out ++ indent level ++ field ++ ": ") a ++ ",\n") fields

end

def inline (o : Outline) : String := o.writeInline ""

def lines (o : Outline) : String := o.writeLines 0 ""

end Outline

end MiniC
