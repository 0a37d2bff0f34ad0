import CppProjects.Core.Delimiters
import CppProjects.Xml.XmlTree

/-!
# When `XML::str` tells trees apart

Nothing is escaped, so the delimiters have to be told from the strings.  With them
kept out, the text of an element can even be told from what follows it.
-/

namespace CppProjects

open Delimiters XmlHeap

namespace XmlTree

/-- The strings of an element are free of what ends them. -/
structure FreeOfMarkup (name : Option XmlText) (text : XmlText) (attrs : OrderedMap XmlText XmlText) :
    Prop where
  name_isSome : name.isSome
  name_free : ∀ c ∈ name.getD [], c ≠ ' ' ∧ c ≠ '>'
  name_start : (name.getD []).head? ≠ some '/'
  text_free : '<' ∉ text
  keys_free : ∀ entry ∈ attrs.entries, ¬ ['=', '"'] <:+: entry.1
  values_free : ∀ entry ∈ attrs.entries, ¬ [' ', '"'] <:+: entry.2

/-- All elements are. -/
def MarkupFree : XmlTree → Prop := All FreeOfMarkup

theorem MarkupFree.named {t : XmlTree} (hfree : t.MarkupFree) : t.Named := by
  induction t using XmlTree.induction with
  | element name text attrs children ih =>
      refine ⟨hfree.1.name_isSome, allChildren_iff.mpr fun child hmem => ?_⟩
      exact ih child hmem (allChildren_iff.mp hfree.2 child hmem)

/-! ## Attributes -/

end XmlTree

namespace XmlHeap

open XmlTree

/-- A name with a blank. -/
example : strElement ['r'] [] [] [strElement ['a'] [] [(['b'], "x></a b=\"x><a>".toList)] []] =
    strElement ['r'] [] [] [strElement "a b=\"x".toList [] [] [], strElement ['a'] " \">".toList [] []] := by
  decide

/-- A name with the end of a tag. -/
example : strElement ['r'] [] [] [strElement ['a', '>'] [] [] []] =
    strElement ['r'] ['>'] [] [strElement ['a'] ['>'] [] []] := by
  decide

/-- A name with a slash at its start. -/
example : strElement ['q'] [] [] [strElement ['r'] [] [] [], strElement ['r'] [] [] [strElement ['/', 'r'] [] [] []]] =
    strElement ['q'] [] [] [strElement ['r'] [] [] [strElement ['/', 'r'] [] [] [strElement ['r'] [] [] []]]] := by
  decide

/-- A key that looks like an attribute, and a value that does. -/
example : strElement ['a'] [] [("k=\"x \" l".toList, ['y'])] [] =
      strElement ['a'] [] [(['k'], ['x']), (['l'], ['y'])] [] ∧
    strElement ['a'] [] [(['k'], "x \" l=\"y".toList)] [] =
      strElement ['a'] [] [(['k'], ['x']), (['l'], ['y'])] [] := by
  decide

end XmlHeap

end CppProjects
