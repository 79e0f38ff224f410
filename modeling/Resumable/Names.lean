/-!
# Names with a meaning

Type names are paths separated by slashes (`app/Worker`). The platform owns everything below
`sys/`; the types that support coroutines live below `ravel/`.
-/

namespace Resumable.Names

/-- What every platform type's name starts with. -/
def platformStart : String := "sys/"

/-- The root of the type hierarchy. -/
def object : String := "sys/Object"

/-- The root of everything that can be thrown. -/
def throwable : String := "sys/Throwable"

def string : String := "sys/String"

def exception : String := "sys/Exception"

def runtimeException : String := "sys/RuntimeException"

def illegalState : String := "sys/IllegalStateException"

/-- Thrown by an integer division by zero. -/
def arithmetic : String := "sys/ArithmeticException"

/-- Thrown when null is used as an object. -/
def nullPointer : String := "sys/NullPointerException"

/-- Thrown by a cast to a type that the object does not have. -/
def classCast : String := "sys/ClassCastException"

/-- Thrown for an index outside an array. -/
def indexOutOfBounds : String := "sys/IndexOutOfBoundsException"

/-- Thrown for an array of negative length. -/
def negativeArraySize : String := "sys/NegativeArraySizeException"

def error : String := "sys/Error"

def thread : String := "sys/Thread"

def lock : String := "sys/sync/Lock"

/-- The type that owns the suspend call. -/
def coroutine : String := "ravel/Coroutine"

def yieldName : String := "yield"

def yieldDesc : String := "()V"

/-- The type of the signal that unwinds a suspending coroutine. A method that declares it may
suspend. -/
def suspendExecution : String := "ravel/SuspendExecution"

/-- The marker of a class whose methods have been instrumented. -/
def instrumented : String := "ravel/Instrumented"

def constructor : String := "<init>"

def staticInitializer : String := "<clinit>"

/-- Whether the platform owns the type. -/
def isPlatform (owner : String) : Bool :=
  platformStart.toList.isPrefixOf owner.toList

/-- Whether the method is a constructor or an initializer. -/
def isSpecial (method : String) : Bool :=
  method.toList.head? == some '<'

/-- Whether the member is the suspend call. -/
def isYield (owner name desc : String) : Bool :=
  owner == coroutine && name == yieldName && desc == yieldDesc

end Resumable.Names
