import ChocoRV.Asm.Program

/-!
# Support routines

The labels of the routines that every program comes with, and of the objects that compiled code and
the routines refer to.
-/

namespace ChocoRV

namespace Routine

/-! ## Error exits -/

/-- An operation on nothing. -/
def errorNone : Label := .global "error.None"

/-- A division by zero. -/
def errorDiv : Label := .global "error.Div"

/-- An index outside its sequence. -/
def errorOob : Label := .global "error.OOB"

/-- The end of all error exits. -/
def abort : Label := .global "abort"

/-! ## Routines -/

/-- Copies an object. -/
def alloc : Label := .global "alloc"

/-- Makes an object with a header like that of another one. -/
def alloc2 : Label := .global "alloc2"

/-- The constructor that does nothing. -/
def objectInit : Label := .global "object.__init__"

def print : Label := .global "print"

def len : Label := .global "len"

/-- Makes a string of one byte. -/
def strChar : Label := .global "str.char"

/-- Concatenates strings. -/
def strcat : Label := .global "strcat"

/-- Concatenates lists. -/
def listconcat : Label := .global "listconcat"

/-- Compares strings. -/
def streql : Label := .global "streql"

/-! ## Objects -/

def listPrototype : Label := .global "$.list$prototype"

def strPrototype : Label := .global "$str$prototype"

def intPrototype : Label := .global "$int$prototype"

end Routine

end ChocoRV
