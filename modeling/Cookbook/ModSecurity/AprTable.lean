import Cookbook.Lib.FoldTable
import Cookbook.Lib.CText

/-!
# Tables of the portable runtime

`apr_table_t` keeps its entries in order and compares its keys without regard
to case.
-/

namespace Cookbook.ModSecurity

open Cookbook.Lib
open Cookbook.Lib.CText

/-- `apr_table_t`. -/
abbrev AprTable (value : Type) := List (List UInt8 × value)

namespace AprTable

variable {value : Type}

/-- `apr_table_get` -/
abbrev get (table : AprTable value) (key : List UInt8) : Option value :=
  FoldTable.get foldCase table key

/-- `apr_table_setn` -/
abbrev setn (table : AprTable value) (key : List UInt8) (new : value) :
    AprTable value :=
  FoldTable.set foldCase table key new

/-- A change of what `apr_table_get` points to. -/
abbrev modify (table : AprTable value) (key : List UInt8)
    (change : value → value) : AprTable value :=
  FoldTable.modify foldCase table key change

/-- `apr_table_unset` -/
abbrev unset (table : AprTable value) (key : List UInt8) : AprTable value :=
  FoldTable.unset foldCase table key

/-- `apr_table_addn` -/
def addn (table : AprTable value) (key : List UInt8) (new : value) :
    AprTable value :=
  table ++ [(key, new)]

theorem get_cons
    (entry : List UInt8 × value) (rest : AprTable value) (key : List UInt8) :
    AprTable.get (entry :: rest) key = if foldCase entry.1 = foldCase key then some entry.2
      else rest.get key := rfl

variable {table : AprTable value} {key : List UInt8}

theorem get_congr {other : List UInt8} (same : foldCase key = foldCase other) :
    table.get key = table.get other :=
  FoldTable.get_congr same

theorem get_setn
    (table : AprTable value) (changed key : List UInt8) (new : value) :
    (table.setn changed new).get key = if foldCase changed = foldCase key then some new
      else table.get key :=
  FoldTable.get_set table changed key new

theorem get_setn_of_ne {changed : List UInt8} {new : value}
    (differs : foldCase changed ≠ foldCase key) :
    (table.setn changed new).get key = table.get key :=
  FoldTable.get_set_of_ne differs

theorem get_unset_of_ne
    {removed : List UInt8} (differs : foldCase removed ≠ foldCase key) :
    (table.unset removed).get key = table.get key :=
  FoldTable.get_unset_of_ne differs

end AprTable

end Cookbook.ModSecurity
