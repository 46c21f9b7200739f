import CommandLine.Text.Hidden
import CommandLine.Text.Marks

/-!
# Visible characters

A character is shown as itself in quoted text when it has a shape of its own: it is neither hidden
nor a mark that joins the character before it.
-/

set_option autoImplicit false

namespace CommandLine.Text

/-- Whether a character can be shown as itself. -/
def isVisible (c : Char) : Bool := !hidden.contains c && !marks.contains c

end CommandLine.Text
