import Resumable.Machine.Basic
import Resumable.Proofs.Ways

/-!
# Subtypes

A loaded class leads to the class that it extends and to those that it implements
(`ClassTable.Leads`). The search for a type makes as many steps as there are classes. Without a cycle
every class on a way up is met only once, so the steps are enough: a class is a subclass of just the
types that can be reached from it (`ClassTable.isSubclass_iff`), through extended and implemented
classes in any order.

A handler asks for more than that. Objects are taken by the types that their class reaches, but texts
and arrays have no object whose class could be asked, and are taken by fixed types
(`ClassTable.Takes`).
-/

namespace Resumable

open Relation (ReflTransGen TransGen)

namespace ClassTable

variable {t : ClassTable} {name type : String} {steps : Nat}

/-! ## Reaching a type -/

/-- A loaded class leads to the class that it extends and to those that it implements. -/
def Leads (t : ClassTable) (name above : String) : Prop :=
  ∃ c, t.find? name = some c ∧ (c.superName = some above ∨ above ∈ c.interfaces)

/-- No class leads back to itself. -/
def IsAcyclic (t : ClassTable) : Prop := ∀ name, ¬ TransGen t.Leads name name

/-- A type can be reached from a class. -/
def Reaches (t : ClassTable) (name type : String) : Prop := ReflTransGen t.Leads name type

/-- The names of the loaded classes. -/
def names (t : ClassTable) : List String := t.entries.map Prod.fst

theorem mem_names_of_find? {c : LoadedClass} (h : t.find? name = some c) : name ∈ t.names := by
  obtain ⟨front, rest, heq, -⟩ := List.lookup_eq_some_iff.1 h
  rw [names, heq]
  simp

theorem Leads.mem_names {above : String} (h : t.Leads name above) : name ∈ t.names := by
  obtain ⟨c, hc, -⟩ := h
  exact mem_names_of_find? hc

/-- A type is reached at once, or from one of the classes that a class leads to. -/
theorem reaches_iff : t.Reaches name type ↔
    name = type ∨ ∃ above, t.Leads name above ∧ t.Reaches above type :=
  ReflTransGen.cases_head_iff

/-- The search finds what can be reached, if its steps are enough for all that is ahead. -/
theorem reaches_eq_true_iff (hacyclic : t.IsAcyclic) (hsteps : ahead t.Leads t.names name ≤ steps) :
    t.reaches type steps name = true ↔ t.Reaches name type := by
  induction steps generalizing name with
  | zero =>
    -- Nothing is ahead, so the class is not loaded and leads nowhere.
    have hnowhere : ¬ ∃ above, t.Leads name above ∧ t.Reaches above type := by
      rintro ⟨above, hleads, -⟩
      have hpos : 0 < ahead t.Leads t.names name := ahead_pos hleads.mem_names
      omega
    rw [reaches_iff, reaches]
    simp [hnowhere]
  | succ steps ih =>
    rw [reaches_iff, reaches, Bool.or_eq_true, beq_iff_eq]
    apply or_congr_right
    rcases hc : t.find? name with - | c
    · simp [Leads, hc]
    have hnext {above : String} (hleads : t.Leads name above) :
        t.reaches type steps above = true ↔ t.Reaches above type := by
      apply ih
      have hlt := ahead_lt (hacyclic name) hleads.mem_names hleads
      omega
    simp only [Bool.or_eq_true, List.any_eq_true, Option.any_eq_true]
    constructor
    · rintro (⟨above, hmem, hfound⟩ | ⟨above, hsuper, hfound⟩)
      · have hleads : t.Leads name above := ⟨c, hc, .inr hmem⟩
        exact ⟨above, hleads, (hnext hleads).1 hfound⟩
      · have hleads : t.Leads name above := ⟨c, hc, .inl hsuper⟩
        exact ⟨above, hleads, (hnext hleads).1 hfound⟩
    · rintro ⟨above, hleads, hreaches⟩
      have hfound := (hnext hleads).2 hreaches
      obtain ⟨c', hc', habove⟩ := hleads
      cases hc.symm.trans hc'
      rcases habove with hsuper | hmem
      · exact .inr ⟨above, hsuper, hfound⟩
      · exact .inl ⟨above, hmem, hfound⟩

/-- A class is a subclass of just the types that can be reached from it. -/
theorem isSubclass_iff (hacyclic : t.IsAcyclic) (name type : String) :
    t.isSubclass name type = true ↔ t.Reaches name type := by
  apply reaches_eq_true_iff hacyclic
  have hle := ahead_le_length t.Leads t.names name
  rwa [names, List.length_map] at hle

/-! ## What handlers take -/

/-- The values that a type takes. Objects are told by their class; texts and arrays are taken by fixed
types, whatever is loaded. -/
def Takes (t : ClassTable) (h : Heap) (type : String) : Value → Prop
  | .object id => t.Reaches (h.object id).type type
  | .str _ => type = Names.string ∨ type = Names.object
  | .array _ => type = Names.object ∨ type.toList.head? = some '['
  | _ => False

theorem isInstance_iff (hacyclic : t.IsAcyclic) (h : Heap) (v : Value) (type : String) :
    t.isInstance h v type = true ↔ t.Takes h type v := by
  cases v with
  | object id => exact isSubclass_iff hacyclic _ _
  | str s => simp [isInstance, Takes]
  | array id => simp [isInstance, Takes]
  | null => simp [isInstance, Takes]
  | int v => simp [isInstance, Takes]
  | long v => simp [isInstance, Takes]
  | float bits => simp [isInstance, Takes]
  | double bits => simp [isInstance, Takes]

/-- The handler is in charge of an exception that is thrown at a place. -/
def Catches (t : ClassTable) (h : Heap) (pc : Nat) (exception : Value) (handler : LoadedHandler) :
    Prop :=
  handler.covers pc = true ∧ ∀ type ∈ handler.catchType, t.Takes h type exception

/-- An exception goes to the first handler that is in charge of it. -/
theorem handlerFor?_eq_some_iff (hacyclic : t.IsAcyclic) {h : Heap} {m : LoadedMethod} {pc : Nat}
    {exception : Value} {handler : LoadedHandler} :
    t.handlerFor? h m pc exception = some handler ↔ t.Catches h pc exception handler ∧
      ∃ before after, m.handlers = before ++ handler :: after ∧
        ∀ other ∈ before, ¬ t.Catches h pc exception other := by
  have hcatches (other : LoadedHandler) : (other.covers pc &&
      other.catchType.all (t.isInstance h exception)) = true ↔ t.Catches h pc exception other := by
    rw [Bool.and_eq_true, Option.all_eq_true]
    exact and_congr_right fun _ => forall₂_congr fun type _ =>
      isInstance_iff hacyclic h exception type
  unfold handlerFor?
  rw [List.find?_eq_some_iff_append, hcatches]
  simp only [Bool.not_eq_true', ← Bool.not_eq_true, hcatches]

/-- **Subtypes are what can be reached.** Without a cycle among the loaded classes, a class is a
subclass of just the types that can be reached from it, through extended and implemented classes in
any order, and subclasses are preordered. An exception goes to the first handler that is in charge of
it: an object to one whose type can be reached from its class, a text to one for texts or for all
objects, an array to one for any kind of array or for all objects. -/
theorem subtypes_reached (hacyclic : t.IsAcyclic) :
    (∀ name type, t.isSubclass name type = true ↔ t.Reaches name type) ∧
    IsPreorder String (fun name type => t.isSubclass name type = true) ∧
    ∀ h m pc exception handler, t.handlerFor? h m pc exception = some handler ↔
      t.Catches h pc exception handler ∧ ∃ before after, m.handlers = before ++ handler :: after ∧
        ∀ other ∈ before, ¬ t.Catches h pc exception other := by
  refine ⟨isSubclass_iff hacyclic, ?_, fun h m pc exception handler =>
    handlerFor?_eq_some_iff hacyclic⟩
  have hsame : (fun name type => t.isSubclass name type = true) = t.Reaches := by
    funext name type
    exact propext (isSubclass_iff hacyclic name type)
  rw [hsame]
  exact { refl := fun _ => .refl, trans := fun _ _ _ => .trans }

/-- If every class that a loaded class leads to is lower, no class leads back to itself. -/
theorem isAcyclic_of_height (height : String → Nat)
    (h : ∀ entry ∈ t.entries, ∀ above ∈ entry.2.superName.toList ++ entry.2.interfaces,
      height above < height entry.1) : t.IsAcyclic := by
  apply no_way_back height
  rintro name above ⟨c, hc, habove⟩
  obtain ⟨front, rest, heq, -⟩ := List.lookup_eq_some_iff.1 hc
  refine h (name, c) (by rw [heq]; simp) above ?_
  simpa using habove

/-- A method that throws its argument, with a handler for a type. -/
def throwing (name type : String) : Method where
  name := name
  desc := "(Lsys/Object;)I"
  access := .static
  maxLocals := 1
  code := [.label ⟨0⟩, .local .aload 0, .simple .athrow, .label ⟨1⟩, .simple .pop, .const (.int 7),
    .simple .ireturn]
  handlers := [⟨⟨0⟩, ⟨1⟩, ⟨1⟩, some type⟩]

/-- Two ways lead from `app/D` to `app/I`: over the class that it extends, and over one that it
implements. Texts are told to be an `app/Text`. -/
def diamond : ClassTable :=
  [{ ClassDef.new Names.string with interfaces := ["app/Text"] },
    { ClassDef.new "app/I" with access := .interface },
    { ClassDef.new "app/C" with access := .interface, interfaces := ["app/I"] },
    { ClassDef.new "app/B" with superName := some Names.error, interfaces := ["app/I"] },
    { ClassDef.new "app/D" with superName := some "app/B", interfaces := ["app/C"] },
    { ClassDef.new "app/Main" with
      methods := [throwing "texts" "app/Text", throwing "arrays" "[J"] }].foldl
        .insert Platform.table

theorem isAcyclic_diamond : diamond.IsAcyclic := by
  refine isAcyclic_of_height (fun name => ([(Names.object, 0), (Names.throwable, 1),
    (Names.exception, 2), (Names.error, 2), (Names.runtimeException, 3), ("app/I", 1), ("app/C", 2),
    ("app/B", 3), ("app/Text", 0)].lookup name).getD 4) ?_
  decide +kernel

/-- An object of class `app/D`, and an array of one int. -/
def thrown : Heap := ⟨#[{ type := Names.suspendExecution }, { type := "app/D" }], #[#[.int 0]]⟩

theorem subtypes_reached_diamond : diamond.IsAcyclic ∧ diamond.Reaches "app/D" "app/I" ∧
    ¬ diamond.Reaches "app/I" "app/D" ∧
    diamond.Catches thrown 2 (.object 1) ⟨0, 3, 3, some "app/I"⟩ := by
  obtain ⟨hreached, -, htaken⟩ := subtypes_reached isAcyclic_diamond
  refine ⟨isAcyclic_diamond, (hreached _ _).1 (by decide +kernel), fun h => ?_, ?_⟩
  · have hsub := (hreached _ _).2 h
    revert hsub
    decide +kernel
  · have hfound : diamond.handlerFor? thrown (.load "app/Main" (throwing "m" "app/I")) 2
        (.object 1) = some ⟨0, 3, 3, some "app/I"⟩ := by decide +kernel
    exact ((htaken _ _ _ _ _).1 hfound).1

/-- What becomes of a value that a method of `app/Main` throws. -/
def outcomeOf (name : String) (v : Value) : Option (Except RunError (Option Value)) :=
  let machine : Machine .empty :=
    { host := { memory := { heap := thrown }, own := () }, classes := diamond }
  (machine.perform? 9 (.call ⟨.invokestatic, ⟨"app/Main", name, "(Lsys/Object;)I"⟩, [v]⟩)).map (·.2)

/-- What the class of a value reaches is not what takes it. The class of texts reaches `app/Text`, but a
handler for that type does not take a text; and one for arrays of longs takes an array, though the class
of arrays does not reach that type. -/
theorem taken_whatever_reached : diamond.IsAcyclic ∧
    (thrown.className? (.str "s") = some Names.string ∧ diamond.Reaches Names.string "app/Text" ∧
      outcomeOf "texts" (.str "s") = some (.error (.thrown (.str "s")))) ∧
    thrown.className? (.array 0) = some Names.object ∧ ¬ diamond.Reaches Names.object "[J" ∧
      outcomeOf "arrays" (.array 0) = some (.ok (some (.int 7))) := by
  have hreached := isSubclass_iff isAcyclic_diamond
  refine ⟨isAcyclic_diamond, ⟨rfl, (hreached _ _).1 (by decide +kernel), by decide +kernel⟩, rfl,
    fun h => ?_, by decide +kernel⟩
  have hsub := (hreached _ _).2 h
  revert hsub
  decide +kernel

end ClassTable

end Resumable
