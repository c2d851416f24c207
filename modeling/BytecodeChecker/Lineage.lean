/-! The fixed class hierarchy of exceptions. A class that is not listed is a direct subclass of the
root class. -/
namespace BytecodeChecker.Lineage

def throwable : String := "java.lang.Throwable"
def exception : String := "java.lang.Exception"
def error : String := "java.lang.Error"
def runtimeException : String := "java.lang.RuntimeException"
def arithmeticException : String := "java.lang.ArithmeticException"
def nullPointerException : String := "java.lang.NullPointerException"
def illegalMonitorStateException : String := "java.lang.IllegalMonitorStateException"
def illegalArgumentException : String := "java.lang.IllegalArgumentException"
def assertionError : String := "java.lang.AssertionError"

def ancestors (className : String) : List String :=
  if className = throwable then [throwable]
  else if className = runtimeException then [runtimeException, exception, throwable]
  else if className ∈ [arithmeticException, nullPointerException, illegalMonitorStateException,
      illegalArgumentException] then [className, runtimeException, exception, throwable]
  else if className = assertionError then [assertionError, error, throwable]
  else [className, throwable]

def isSubclass (className ancestor : String) : Bool := (ancestors className).contains ancestor

theorem subclassThrowable (className : String) : isSubclass className throwable = true := by
  simp only [isSubclass, ancestors]
  split <;> (try split) <;> (try split) <;> (try split) <;> simp

theorem subclassSelf (className : String) : isSubclass className className = true := by
  simp only [isSubclass, ancestors]
  split <;> (try split) <;> (try split) <;> (try split) <;> simp_all

end BytecodeChecker.Lineage
