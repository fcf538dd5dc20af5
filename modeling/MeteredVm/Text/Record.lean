/-!
# MeteredVm.Text.Record

The diagnostic text of values with named parts: the name of the value, then its fields in
braces, each as `name: value`, set apart by commas.
-/

namespace MeteredVm.Text

/-- The text of a value with named fields. -/
def record (name : String) (fields : List (String × String)) : String :=
  name ++ " \x7b " ++ String.intercalate ", " (fields.map fun (k, v) => k ++ ": " ++ v) ++ " \x7d"

/-- The text of a table: its entries in braces, nothing between the braces when it is empty. -/
def table (entries : List (String × String)) : String :=
  "\x7b" ++ String.intercalate ", " (entries.map fun (k, v) => k ++ ": " ++ v) ++ "\x7d"

def quoted (s : String) : String := "\"" ++ s ++ "\""

def bool (b : Bool) : String := if b then "true" else "false"

end MeteredVm.Text
