import CountedBTree.Dictionary.Bookmark
import CountedBTree.Text.Quoted

/-!
# Listings

The text of a value on one line: records with named fields between braces, lists
between square brackets, maps with a colon after each key. A map also has a form
with one entry per line.
-/

namespace CountedBTree

/-- Values that have a text. -/
class Listed (α : Type) where
  /-- The text of a value. -/
  listing : α → String

namespace Text

/-- Texts in a row, separated by a comma and a space. -/
def row (items : List String) : String := ", ".intercalate items

/-- A list of texts. -/
def list (items : List String) : String := "[" ++ row items ++ "]"

/-- One named field of a record. -/
def field (name text : String) : String := name ++ ": " ++ text

/-- A record with its fields. -/
def record (name : String) (fields : List String) : String :=
  name ++ " \x7b " ++ row fields ++ " \x7d"

/-- A list of numbers. -/
def numbers (items : List Nat) : String := list (items.map (fun item => toString item))

variable {κ ν : Type} [Listed κ] [Listed ν]

/-- An entry of a map. -/
def mapEntry (entry : κ × ν) : String :=
  field (Listed.listing entry.1) (Listed.listing entry.2)

/-- A map on one line. -/
def map (entries : List (κ × ν)) : String := "\x7b" ++ row (entries.map mapEntry) ++ "\x7d"

/-- A map with one indented entry per line, each followed by a comma. -/
def mapLines (entries : List (κ × ν)) : String :=
  match entries with
  | [] => "\x7b\x7d"
  | _ =>
      "\x7b\n" ++ String.join (entries.map (fun entry => "    " ++ mapEntry entry ++ ",\n")) ++
        "\x7d"

end Text

section

variable {κ ν : Type}

mutual

/-- The text of a node with everything below it. -/
def Node.listing [Listed κ] [Listed ν] : Node κ ν → String
  | .leaf capacity total entries =>
      Text.record "Node" [
        Text.field "keys" (Text.list (entries.map (fun entry => Listed.listing entry.1))),
        Text.field "values" (Text.list (entries.map (fun entry => Listed.listing entry.2))),
        Text.field "children" "None",
        Text.field "capacity" (toString capacity),
        Text.field "total_elements" (toString total)]
  | .branch capacity total entries children =>
      Text.record "Node" [
        Text.field "keys" (Text.list (entries.map (fun entry => Listed.listing entry.1))),
        Text.field "values" (Text.list (entries.map (fun entry => Listed.listing entry.2))),
        Text.field "children" ("Some(" ++ Text.list (Node.listings children) ++ ")"),
        Text.field "capacity" (toString capacity),
        Text.field "total_elements" (toString total)]

/-- The texts of several nodes. -/
def Node.listings [Listed κ] [Listed ν] : List (Node κ ν) → List String
  | [] => []
  | child :: rest => child.listing :: Node.listings rest

end

instance [Listed κ] [Listed ν] : Listed (Node κ ν) := ⟨Node.listing⟩

/-- A place is written by its numbers and its slot alone. -/
instance : Listed (Place κ ν) where
  listing place :=
    Text.record "Path" [
      Text.field "offsets" (Text.numbers place.numbers),
      Text.field "slot" (toString place.slot)]

/-- A bookmark is written by its place, or as the end, and its generation. -/
instance : Listed (Bookmark κ ν) where
  listing bookmark :=
    Text.record "Index" (
      (match bookmark.place with
        | some place => [
            Text.field "offsets" (Text.numbers place.numbers),
            Text.field "slot" (toString place.slot)]
        | none => [Text.field "end" "true"]) ++
      [Text.field "generation" (toString bookmark.generation)])

end

end CountedBTree
