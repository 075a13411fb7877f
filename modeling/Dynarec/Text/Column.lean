/-!
# Columns

Numbers in listings are aligned at the right end of a column.
-/

namespace Dynarec

/-- Fill up with blanks on the left; a text that is wider stays as it is. -/
def padLeft (width : Nat) (text : String) : String :=
  String.ofList (List.replicate (width - text.length) ' ') ++ text

end Dynarec
