import Mathlib.Data.List.Perm.Subperm
import Resumable.Instrument.Class
import Resumable.Proofs.ClassDef.Verify
import Resumable.Proofs.Instrument.Account
import Resumable.Proofs.Instrument.Additions
import Resumable.Proofs.Instrument.Stretches
import Resumable.Proofs.Instrument.Suspension

/-!
# A transformed class passes verification

A class that passes verification still does when its methods have been transformed
(`ClassDef.verify_of_instrument`). For a method this is checked part by part: labels are placed once
(`Arranged.nodup`), those that are referred to are placed (`Arranged.targets`), there is room for all
locals, no handler is inverted (`Transforms.handlers_sound`), and the last instruction throws.
-/

namespace Resumable

open List (Forall₂)

/-! ## Locals of a plan -/

/-- Only locals of the method are saved. -/
theorem Transforms.local_lt {owner : String} {m m' : Method} {a : Analysed} {plan : MethodPlan}
    (h : Transforms owner m a plan m') {p : SuspensionPoint} (hp : p ∈ plan.points) :
    ∀ x ∈ p.locals, x.1.toNat < a.method.maxLocals.toNat := by
  obtain ⟨op, callee, f, hcode, hf, hplan⟩ := (h.point hp).1
  obtain ⟨-, hmethod, hanalyzed⟩ := h.analyzed
  have hlen : f.locals.length = a.method.maxLocals.toNat := hmethod ▸ hanalyzed.uniform _ f hf
  intro x hx
  obtain ⟨i, t, hnumber, ht, -⟩ := (SuspensionPoint.plan_for hplan).locals.sound x hx
  have hlt := (List.getElem?_eq_some_iff.1 ht).1
  rw [List.length_drop] at hlt
  omega

namespace Analysed

variable {a : Analysed} {plan : MethodPlan} {m : Method} {chunks : List (List Instr)} {k i : Nat}
  {p : SuspensionPoint} {l : Label}

/-! ## What is added refers to nothing -/

theorem branchTargets_of_mem_stretch {x : Instr} (h : x ∈ a.stretch plan k p) :
    x.branchTargets = [] := (isAdded_of_mem_stretch h).branchTargets_eq

theorem branchTargets_of_mem_leadIn {omitted : List Nat} {index : Nat} {i x : Instr}
    {front : List Instr} (h : Writes (a.leadIn omitted index i) front) (hx : x ∈ front) :
    x.branchTargets = [] := (isAdded_of_mem_leadIn h hx).branchTargets_eq

namespace Arranged

open Layout (startOf placeOf stop)

/-- What stands in a chunk was added and refers to nothing, or is the instruction itself. -/
theorem branchTargets_of_mem_chunk {x y : Instr} {c : List Instr} (hchunk : a.Chunk plan (x, i) c)
    (hy : y ∈ c) : y = x ∨ y.branchTargets = [] :=
  (eq_or_isAdded_of_mem_chunk hchunk hy).imp_right Instr.IsAdded.branchTargets_eq

/-- A label that the method places is placed. -/
theorem mem_code_of_label (h : a.Arranged plan m chunks) (hl : .label l ∈ a.method.code) :
    .label l ∈ m.code := by
  obtain ⟨i, hi⟩ := List.mem_iff_getElem?.1 hl
  exact List.mem_of_getElem? ((h.layout.getElem?_placeOf (h.keeps_label hi)).trans hi)

/-- Labels that are referred to are placed. -/
theorem targets (h : a.Arranged plan m chunks)
    (htargets : ∀ x ∈ a.method.code, ∀ l ∈ x.branchTargets, .label l ∈ a.method.code) :
    ∀ x ∈ m.code, ∀ l ∈ x.branchTargets, .label l ∈ m.code := by
  intro x hx l hl
  obtain ⟨q, hq⟩ := List.mem_iff_getElem?.1 hx
  rcases h.layout.place_cases hq with ⟨-, hhead⟩ | ⟨-, htail⟩ |
    ⟨i, y, c, hy, -, hchunk, -, -, hget⟩
  · simp only [head, List.mem_cons, List.not_mem_nil, or_false] at hhead
    rcases hhead with rfl | rfl | rfl
    · cases hl
    · -- The switch goes to the start or to where a point goes on.
      rcases List.mem_cons.1 hl with rfl | hl
      · exact List.mem_of_getElem? (getElem?_of_labelPosition? (h.layout.position_start h.labels))
      · obtain ⟨k, hk, rfl⟩ := List.mem_map.1 hl
        have hp := List.getElem?_eq_getElem (List.mem_range.1 hk)
        obtain ⟨-, -, hresume, -⟩ := h.layout.positions_of_point h.sorted h.labels hp
          (h.index_lt (List.mem_of_getElem? hp))
        exact List.mem_of_getElem? (getElem?_of_labelPosition? hresume)
    · cases hl
  · simp only [tail, List.mem_cons, List.not_mem_nil, or_false] at htail
    rcases htail with rfl | rfl | rfl | rfl | rfl <;> cases hl
  · rcases branchTargets_of_mem_chunk hchunk (List.mem_of_getElem? hget) with rfl | hnone
    · exact h.mem_code_of_label (htargets _ (List.mem_of_getElem? hy) l hl)
    · rw [hnone] at hl
      cases hl

/-! ## Labels are placed once -/

theorem placedLabels_append (xs ys : List Instr) :
    placedLabels (xs ++ ys) = placedLabels xs ++ placedLabels ys :=
  List.filterMap_append

theorem placedLabels_flatten (xss : List (List Instr)) :
    placedLabels xss.flatten = (xss.map placedLabels).flatten :=
  List.filterMap_flatten

theorem placedLabels_eq_nil {xs : List Instr} (h : ∀ l, .label l ∉ xs) : placedLabels xs = [] :=
  List.eq_nil_iff_forall_not_mem.2 fun l hl => h l (mem_placedLabels.1 hl)

theorem placedLabels_stretch (a : Analysed) (plan : MethodPlan) (k : Nat) (p : SuspensionPoint) :
    placedLabels (a.stretch plan k p) = [a.method.freshLabel (4 + plan.points.length + k),
      a.method.freshLabel (4 + k),
      a.method.freshLabel (4 + plan.points.length + plan.points.length + k)] := by
  have hsave : placedLabels (p.saveCode (UInt32.ofNat (k + 1)) ++
      if p.isYield then [.frame .suspend] else []) = [] := by
    refine placedLabels_eq_nil fun l hl => ?_
    rcases List.mem_append.1 hl with hl | hl
    · exact not_label_of_saveCode hl
    · split at hl <;> simp at hl
  have hrestore : placedLabels p.restoreCode = [] :=
    placedLabels_eq_nil fun _ => not_label_of_restoreCode
  rw [Layout.stretch_eq, Layout.saving, Layout.resuming, placedLabels_append, List.cons_append]
  show _ :: placedLabels (_ ++ _) ++ _ :: placedLabels (_ ++ _) = _
  rw [hsave, placedLabels_append, hrestore]
  rfl

/-- No label is placed twice for one instruction. -/
theorem nodup_chunk (h : a.Arranged plan m chunks) {x : Instr} {c : List Instr}
    (hx : a.method.code[i]? = some x) (hchunk : a.Chunk plan (x, i) c) : (placedLabels c).Nodup := by
  have hwrit {c : List Instr} (hw : Writ a plan.omitted (x, i) c) :
      placedLabels c = [] ∨ ∃ l, x = .label l ∧ placedLabels c = [l] := by
    cases hw with
    | kept _ hfront =>
      rw [placedLabels_append, placedLabels_eq_nil fun l => not_label_of_leadIn hfront]
      cases x with
      | label l => exact .inr ⟨l, rfl, rfl⟩
      | _ => exact .inl rfl
    | leftOut => exact .inl rfl
  have hstretch {k : Nat} {p : SuspensionPoint} (hp : plan.points[k]? = some p) :
      (placedLabels (a.stretch plan k p)).Nodup := by
    have hk := (List.getElem?_eq_some_iff.1 hp).1
    have hne {i j : Nat} (hi : i < 4 + 3 * plan.points.length)
        (hj : j < 4 + 3 * plan.points.length) (hij : i ≠ j) :
        a.method.freshLabel i ≠ a.method.freshLabel j := fun heq =>
      hij (Method.freshLabel_inj h.labels hi hj heq)
    rw [placedLabels_stretch]
    simp only [List.nodup_cons, List.mem_cons, List.not_mem_nil, or_false, not_or, not_false_eq_true,
      List.nodup_nil, and_true]
    exact ⟨⟨hne (by omega) (by omega) (by omega), hne (by omega) (by omega) (by omega)⟩,
      hne (by omega) (by omega) (by omega)⟩
  cases hchunk with
  | plain _ hw =>
    rcases hwrit hw with heq | ⟨l, -, heq⟩
    · rw [heq]
      exact List.nodup_nil
    · rw [heq]
      simp
  | @point k p c hp hindex _ hw =>
    rw [placedLabels_append]
    rcases hwrit hw with heq | ⟨l, rfl, -⟩
    · rw [heq, List.append_nil]
      exact hstretch hp
    · rw [← show p.index = i from hindex] at hx
      exact absurd hx (h.not_label_at_point (List.mem_of_getElem? hp))
  | yield hp => exact hstretch hp

/-- No label is placed for two instructions. -/
theorem disjoint_chunks (h : a.Arranged plan m chunks) (hnodup : (placedLabels a.method.code).Nodup)
    {j : Nat} {x y : Instr} {c d : List Instr} (hij : i ≠ j) (hx : a.method.code[i]? = some x)
    (hy : a.method.code[j]? = some y) (hc : a.Chunk plan (x, i) c) (hd : a.Chunk plan (y, j) d)
    (hlc : .label l ∈ c) (hld : .label l ∈ d) : False := by
  have hown {i number : Nat} (hi : a.method.code[i]? = some (.label l))
      (hnumber : number < 4 + 3 * plan.points.length) (heq : l = a.method.freshLabel number) :
      False :=
    Method.freshLabel_ne h.labels hnumber (Method.mem_labels_of_getElem? hi) heq
  rcases label_of_mem_chunk hc hlc with heq | ⟨k, p, hp, hindex, number, hnumber, heq⟩ <;>
    rcases label_of_mem_chunk hd hld with heq' | ⟨k', p', hp', hindex', number', hnumber', heq'⟩
  · rw [show x = .label l from heq] at hx
    rw [show y = .label l from heq'] at hy
    exact hij (eq_of_nodup_placedLabels hnodup hx hy)
  · rw [show x = .label l from heq] at hx
    exact hown hx (lt_of_mem_pointLabels hnumber' (List.getElem?_eq_some_iff.1 hp').1) heq'
  · rw [show y = .label l from heq'] at hy
    exact hown hy (lt_of_mem_pointLabels hnumber (List.getElem?_eq_some_iff.1 hp).1) heq
  · have hk := (List.getElem?_eq_some_iff.1 hp).1
    have hk' := (List.getElem?_eq_some_iff.1 hp').1
    have hsame := Method.freshLabel_inj h.labels (lt_of_mem_pointLabels hnumber hk)
      (lt_of_mem_pointLabels hnumber' hk') (heq.symm.trans heq')
    obtain rfl := eq_of_mem_pointLabels hk hk' hnumber (hsame ▸ hnumber')
    cases hp.symm.trans hp'
    exact hij (hindex.symm.trans hindex')

/-- Each label is placed once. -/
theorem nodup (h : a.Arranged plan m chunks) (hnodup : (placedLabels a.method.code).Nodup) :
    (placedLabels m.code).Nodup := by
  have hlen : chunks.length = a.method.code.length := by
    rw [← h.layout.chunk.length_eq, List.length_zipIdx]
  have hchunks : (placedLabels chunks.flatten).Nodup := by
    rw [placedLabels_flatten]
    refine List.pairwise_flatten.2 ⟨?_, ?_⟩
    · intro labels hlabels
      obtain ⟨c, hc, rfl⟩ := List.mem_map.1 hlabels
      obtain ⟨x, hx, hchunk⟩ := exists_left_of_mem h.layout.chunk hc
      exact h.nodup_chunk (List.mk_mem_zipIdx_iff_getElem?.1 hx) hchunk
    · refine List.pairwise_map.2 (List.pairwise_iff_getElem.2 fun i j hi hj hij => ?_)
      rintro l hl _ hl' rfl
      obtain ⟨c, hc, hchunk, -⟩ := h.layout.exists_chunk (List.getElem?_eq_getElem (hlen ▸ hi))
      obtain ⟨d, hd, hchunk', -⟩ := h.layout.exists_chunk (List.getElem?_eq_getElem (hlen ▸ hj))
      rw [(List.getElem?_eq_some_iff.1 hc).2, mem_placedLabels] at hl
      rw [(List.getElem?_eq_some_iff.1 hd).2, mem_placedLabels] at hl'
      exact h.disjoint_chunks hnodup (Nat.ne_of_lt hij) (List.getElem?_eq_getElem (hlen ▸ hi))
        (List.getElem?_eq_getElem (hlen ▸ hj)) hchunk hchunk' hl hl'
  -- The labels of the head and the tail have the numbers 0 to 3.
  have hends : (placedLabels (a.head plan) ++ placedLabels a.tail).Nodup := by
    have hne {i j : Nat} (hi : i < 4) (hj : j < 4) (hij : i ≠ j) :
        a.method.freshLabel i ≠ a.method.freshLabel j := fun heq =>
      hij (Method.freshLabel_inj h.labels (by omega) (by omega) heq)
    show [a.method.freshLabel 0, a.method.freshLabel 1, a.method.freshLabel 3,
      a.method.freshLabel 2].Nodup
    simp [hne]
  have hend {l : Label} (hl : l ∈ placedLabels (a.head plan) ++ placedLabels a.tail) :
      l ∉ placedLabels chunks.flatten := by
    have hnumber : ∃ number < 4, l = a.method.freshLabel number := by
      change l ∈ [a.method.freshLabel 0, a.method.freshLabel 1, a.method.freshLabel 3,
        a.method.freshLabel 2] at hl
      simp only [List.mem_cons, List.not_mem_nil, or_false] at hl
      rcases hl with rfl | rfl | rfl | rfl
      · exact ⟨0, by omega, rfl⟩
      · exact ⟨1, by omega, rfl⟩
      · exact ⟨3, by omega, rfl⟩
      · exact ⟨2, by omega, rfl⟩
    obtain ⟨number, hlt, rfl⟩ := hnumber
    rw [mem_placedLabels]
    exact h.layout.end_not_mem_chunks h.labels hlt
  rw [h.layout.code, placedLabels_append, placedLabels_append]
  refine (List.Perm.nodup_iff ?_).1 (List.nodup_append.2 ⟨hends, hchunks, ?_⟩)
  · rw [List.append_assoc, List.append_assoc]
    exact List.Perm.append_left _ List.perm_append_comm
  · rintro l hl _ hl' rfl
    exact hend hl hl'

end Arranged

end Analysed

/-! ## Methods -/

namespace Transforms

variable {owner : String} {m m' : Method} {a : Analysed} {plan : MethodPlan}

/-- A method with points keeps all but its code, its handlers and the number of its locals. -/
theorem same_head (h : Transforms owner m a plan m') (hpoints : plan.points ≠ []) :
    m'.name = m.name ∧ m'.desc = m.desc ∧ m'.access = m.access := by
  obtain ⟨-, hmethod, -⟩ := h.analyzed
  obtain ⟨first, rest, -, _, _, hwrites⟩ := h.exists_transformed hpoints
  obtain ⟨_, _, _, _, _, _, _, -, -, -, -, hm⟩ := Analysed.transformed_cases hwrites
  rw [hm, ← hmethod]
  exact ⟨rfl, rfl, rfl⟩

/-- There are no more points than instructions. -/
theorem length_points_le (h : Transforms owner m a plan m') :
    plan.points.length ≤ m.code.length := by
  obtain ⟨-, hmethod, -⟩ := h.analyzed
  have hnodup : (plan.points.map SuspensionPoint.index).Nodup :=
    List.pairwise_map.2 (h.sorted.imp fun hlt => Nat.ne_of_lt hlt)
  have hsub : plan.points.map SuspensionPoint.index ⊆ List.range m.code.length := by
    intro i hi
    obtain ⟨p, hp, rfl⟩ := List.mem_map.1 hi
    exact List.mem_range.2 (hmethod ▸ (h.point hp).2)
  have hle := (hnodup.subperm hsub).length_le
  rwa [List.length_map, List.length_range] at hle

/-- The handlers are placed, and none is inverted. -/
theorem handlers_sound (h : Transforms owner m a plan m') (hpoints : plan.points ≠ [])
    (hlabels : m.HasLabels (4 + 3 * plan.points.length))
    (hsound : ∀ old ∈ a.method.handlers,
      Upright a.method.code (old.start, old.stop) ∧ .label old.target ∈ a.method.code) :
    ∀ handler ∈ m'.handlers,
      Upright m'.code (handler.start, handler.stop) ∧ .label handler.target ∈ m'.code := by
  obtain ⟨chunks, harranged⟩ := h.arranged hpoints hlabels
  obtain ⟨pieces, hhandlers, hpieces⟩ := h.exists_pieces hpoints hlabels
  have hstart := harranged.layout.position_start harranged.labels
  have hstop := harranged.layout.position_stop harranged.labels
  have hwhole : Upright m'.code (a.method.freshLabel 0, a.method.freshLabel 1) :=
    ⟨2, _, hstart, hstop, by unfold Analysed.Layout.stop; omega⟩
  have hplaced {l : Label} {q : Nat} (hq : labelPosition? m'.code l = some q) :
      .label l ∈ m'.code := List.mem_of_getElem? (getElem?_of_labelPosition? hq)
  intro handler hmem
  rw [hhandlers, List.cons_append, List.mem_cons, List.mem_append, List.mem_singleton] at hmem
  rcases hmem with rfl | hmem | rfl
  · exact ⟨hwhole, hplaced harranged.layout.position_catchSignal⟩
  · obtain ⟨new, hnew, hmem⟩ := List.mem_flatten.1 hmem
    obtain ⟨old, hold, ranges, hcuts, rfl⟩ := exists_left_of_mem hpieces hnew
    obtain ⟨range, hrange, rfl⟩ := List.mem_map.1 hmem
    obtain ⟨hupright, htarget⟩ := hsound old hold
    refine ⟨hcuts.upright (fun whole hwhole => ?_) range hrange,
      harranged.mem_code_of_label htarget⟩
    -- The range was upright in the method, and the order of its ends has stayed.
    obtain ⟨start, stop, hs, he, hle⟩ := hupright
    rw [List.mem_singleton.1 hwhole]
    refine ⟨Analysed.Layout.placeOf chunks start, Analysed.Layout.placeOf chunks stop, ?_, ?_,
      Analysed.Layout.placeOf_mono chunks hle⟩
    · rw [harranged.position_label (Method.mem_labels_of_handler hold (by simp)), hs]
      rfl
    · rw [harranged.position_label (Method.mem_labels_of_handler hold (by simp)), he]
      rfl
  · exact ⟨hwhole, hplaced (harranged.layout.position_catchAll harranged.labels)⟩

/-- A method that passes verification still does when it has been transformed. -/
theorem verify (h : Transforms owner m a plan m') (hpoints : plan.points ≠ [])
    (hlabels : m.HasLabels (4 + 3 * plan.points.length)) (hverify : m.verify = .ok ()) :
    m'.verify = .ok () := by
  obtain ⟨chunks, harranged⟩ := h.arranged hpoints hlabels
  obtain ⟨-, hdesc, haccess⟩ := h.same_head hpoints
  obtain ⟨first, rest, hlist, _, _, hwrites⟩ := h.exists_transformed hpoints
  obtain ⟨-, rfl, -⟩ := h.analyzed
  obtain ⟨type, htype, hbody⟩ := Method.verify_eq_ok_iff.1 hverify
  have hne : a.method.code ≠ [] := by
    intro hempty
    have hlt := harranged.index_lt (p := first) (by rw [hlist]; exact List.mem_cons_self)
    rw [hempty] at hlt
    cases hlt
  obtain ⟨hbodied, hroom, hsound⟩ := hbody.resolve_left hne
  refine Method.verify_eq_ok_iff.2 ⟨type, hdesc ▸ htype, .inr ⟨?_, ?_, ?_⟩⟩
  · unfold Method.isBodyless at hbodied ⊢
    rw [haccess]
    exact hbodied
  · unfold Method.entryLocals Method.isStatic at hroom ⊢
    rw [haccess]
    exact Nat.le_trans hroom harranged.layout.maxLocals
  · refine ⟨harranged.nodup hsound.nodup, harranged.targets hsound.targets, ?_,
      h.handlers_sound hpoints hlabels hsound.handlers, ?_⟩
    · exact Analysed.fits_of_transformed hsound.locals (fun p hp => h.local_lt hp) hwrites
    · obtain ⟨before, hcode, -⟩ := harranged.layout.code_eq
      unfold Method.lastInstr?
      rw [hcode, List.zipIdx_append, List.reverse_append]
      exact ⟨_, _, rfl, rfl⟩

end Transforms

/-! ## Classes -/

namespace Inquiry

variable {owner : String} {m m' : Method} {c out : ClassDef}

/-- A candidate without points stays as it is, and any other is transformed. -/
theorem candidate_cases (h : Gives (instrumentCandidate owner m) m') :
    m' = m ∨ ∃ a plan, plan.points ≠ [] ∧ Transforms owner m a plan m' := by
  unfold instrumentCandidate at h
  obtain ⟨a, ha, h⟩ := h.bind
  obtain ⟨db, h⟩ := h.lift
  rcases hplan : a.plan.run db with ⟨⟨plan, outcome⟩, db'⟩
  rw [hplan] at h
  cases outcome with
  | error e => exact (Gives.not_throw h).elim
  | ok _ =>
    dsimp only at h
    split at h
    · exact .inl h.pure
    · rename_i hpoints
      split at h
      · obtain ⟨_, hthrow, -⟩ := h.bind
        exact (Gives.not_throw hthrow).elim
      · exact .inr ⟨a, plan, by simpa using hpoints, ha, ⟨db, db', hplan⟩, h⟩

/-- A method comes out of its class as it was or transformed. -/
theorem member_cases (h : Gives (instrumentMember owner m) m') :
    m' = m ∨ ∃ a plan, plan.points ≠ [] ∧ Transforms owner m a plan m' := by
  unfold instrumentMember at h
  split at h
  · exact .inl h.pure
  · obtain ⟨db, -, h⟩ := h.bind
    split at h
    · obtain ⟨_, -, h⟩ := h.bind
      exact candidate_cases h
    · exact candidate_cases h

/-- A class comes out as it was, or its methods come out one by one. -/
theorem instrument_cases (h : Gives (instrument c) out) :
    out = c ∨ Forall₂ (fun m m' => Gives (instrumentMember c.name m) m') c.methods out.methods := by
  unfold instrument at h
  obtain ⟨_, -, h⟩ := h.bind
  split at h
  · exact .inl h.pure
  · obtain ⟨db, -, h⟩ := h.bind
    split at h
    · obtain ⟨_, -, h⟩ := h.bind
      exact .inl h.pure
    · obtain ⟨methods, hmethods, h⟩ := h.bind
      right
      rw [h.pure]
      exact hmethods.mapM

end Inquiry

namespace ClassDef

variable {c out : ClassDef}

/-- **Transforming preserves verification.** A class that is accepted is still accepted after it has
been instrumented, whatever the database knows and however it is set, as long as there are numbers
for the labels that are added to its methods. -/
theorem verify_of_instrument (hverify : c.verify = .ok ()) (h : Gives (Inquiry.instrument c) out)
    (hlabels : ∀ m ∈ c.methods, ∀ m' ∈ out.methods, ∀ a plan,
      Transforms c.name m a plan m' → m.HasLabels (4 + 3 * plan.points.length)) :
    out.verify = .ok () := by
  rcases Inquiry.instrument_cases h with rfl | hmembers
  · exact hverify
  · refine verify_of_forall₂ ?_ hverify
    refine forall₂_imp_of_mem hmembers fun m hm m' hm' hgives => ?_
    rcases Inquiry.member_cases hgives with rfl | ⟨a, plan, hpoints, htransforms⟩
    · exact ⟨rfl, rfl, id⟩
    · obtain ⟨hname, hdesc, -⟩ := htransforms.same_head hpoints
      exact ⟨hname, hdesc,
        htransforms.verify hpoints (hlabels m hm m' hm' a plan htransforms)⟩

/-- A class with one method, which pauses. -/
def pausing : ClassDef :=
  { name := "app/A", superName := some Names.object
    methods := [{ Transforms.pausing with throws := [Names.suspendExecution] }] }

/-- What becomes of it. -/
def paused : ClassDef :=
  { pausing with
    markers := [Names.instrumented]
    methods := [{ Transforms.pausingBody with throws := [Names.suspendExecution] }] }

theorem verify_of_instrument_pausing : pausing.verify = .ok () ∧
    Gives (Inquiry.instrument pausing) paused ∧ paused.verify = .ok () := by
  have hverify : pausing.verify = .ok () := by decide +kernel
  have hrun : ((Inquiry.instrument pausing).run.run (.new {} .empty)).1 = .ok paused := by
    decide +kernel
  have hgives : Gives (Inquiry.instrument pausing) paused := ⟨_, _, Prod.ext hrun rfl⟩
  refine ⟨hverify, hgives, verify_of_instrument hverify hgives fun m hm m' _ a plan h => ?_⟩
  have hlen := h.length_points_le
  rw [List.mem_singleton.1 hm] at hlen ⊢
  have hfree : Method.HasLabels { Transforms.pausing with throws := [Names.suspendExecution] } 19 :=
    by decide +kernel
  unfold Method.HasLabels at hfree ⊢
  change plan.points.length ≤ 5 at hlen
  omega

end ClassDef

end Resumable
