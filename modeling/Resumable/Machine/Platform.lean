import Resumable.Machine.Classes
import Resumable.ClassDef.Builder

/-!
# The platform's classes

What every machine has loaded before any other class: the root of the hierarchy, the exceptions, the
text and thread types, and the type of the suspend call. None of them suspends but that call, which
the host implements.
-/

namespace Resumable.Platform

/-- The descriptor of a method that takes a message. -/
def messageDesc : String := "(Lsys/String;)V"

/-- A method whose number of locals is what its code calls for. -/
def method (name desc : String) (code : List Instr) : Method :=
  { MethodDraft.new name desc .everywhere with code }.build

def object : ClassDef :=
  { name := Names.object, access := .everywhere
    methods := [method Names.constructor "()V" [.simple .ret]] }

/-- Keeps a message, which a constructor puts there and `getMessage` returns. -/
def throwable : ClassDef :=
  let message : MemberRef := ⟨Names.throwable, "message", "Lsys/String;"⟩
  let c := ((ClassDef.new Names.throwable).addField message.name message.desc).addDefaultConstructor
  let c := c.addMethod (method Names.constructor messageDesc
    [.local .aload 0, .invoke .invokespecial ⟨Names.object, Names.constructor, "()V"⟩,
      .local .aload 0, .local .aload 1, .field .putfield message, .simple .ret])
  c.addMethod (method "getMessage" "()Lsys/String;"
    [.local .aload 0, .field .getfield message, .simple .areturn])

/-- A kind of exception: both its constructors call those of its parent. -/
def exception (name parent : String) : ClassDef :=
  let c := { ClassDef.new name with superName := some parent }.addDefaultConstructor
  c.addMethod (method Names.constructor messageDesc
    [.local .aload 0, .local .aload 1,
      .invoke .invokespecial ⟨parent, Names.constructor, messageDesc⟩, .simple .ret])

def coroutine : ClassDef :=
  (ClassDef.new Names.coroutine).addMethod
    { name := Names.yieldName, desc := Names.yieldDesc
      access := .union .everywhere (.union .static .native), throws := [Names.suspendExecution] }

def classes : List ClassDef :=
  [object, throwable,
    exception Names.exception Names.throwable,
    exception Names.runtimeException Names.exception,
    exception Names.illegalState Names.runtimeException,
    exception Names.arithmetic Names.runtimeException,
    exception Names.nullPointer Names.runtimeException,
    exception Names.classCast Names.runtimeException,
    exception Names.indexOutOfBounds Names.runtimeException,
    exception Names.negativeArraySize Names.runtimeException,
    exception Names.error Names.throwable,
    exception Names.suspendExecution Names.exception,
    coroutine, ClassDef.new Names.string, (ClassDef.new Names.thread).addDefaultConstructor]

/-- The table that holds the platform's classes. -/
def table : ClassTable := classes.foldl .insert {}

end Resumable.Platform
