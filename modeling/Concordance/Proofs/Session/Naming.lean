import Concordance.Proofs.Heap.Tame
import Concordance.Proofs.Session.Work

/-!
# What binding a name does

A name that is not bound in a scope gets a new binding; otherwise the new type is merged into the binding that it has.
No other binding gets another type, and no type loses alternatives.
-/

namespace Concordance

namespace Heap

variable {h : Heap}

section Names

theorem bound_withName (hb : ((h.withName x name b).scope y).bound? n = some bs) :
    y = x ∧ n = name ∧ bs = [⟨h.bindings.size⟩] ∨ (h.scope y).bound? n = some bs := by
  have hscope : (h.withName x name b).scope y = _ := scope_modify x y
  rw [hscope] at hb
  split at hb
  · rename_i hy
    by_cases hn : n = name
    · subst hn
      rw [Scope.bound?, Scope.local?, Table.get?_insert_self] at hb
      exact .inl ⟨hy.1, rfl, (Option.some.inj hb).symm⟩
    · rw [Scope.bound?, Scope.local?, Table.get?_insert_of_ne hn] at hb
      exact .inr hb
  · exact .inr hb

theorem local_withName_of_ne (hne : y = x → n ≠ name) :
    ((h.withName x name b).scope y).local? n = (h.scope y).local? n := by
  have hscope : (h.withName x name b).scope y = _ := scope_modify x y
  rw [hscope]
  split
  · rename_i hy
    rw [Scope.local?, Scope.local?, Table.get?_insert_of_ne (hne hy.1)]
  · rfl

theorem bound_withName_of_ne (hne : y = x → n ≠ name) :
    ((h.withName x name b).scope y).bound? n = (h.scope y).bound? n := by
  rw [Scope.bound?, Scope.bound?, local_withName_of_ne hne]

theorem bound_withName_self (hx : x.index < h.scopes.size) :
    ((h.withName x name b).scope x).bound? name = some [⟨h.bindings.size⟩] := by
  have hscope : (h.withName x name b).scope x = _ := scope_modify x x
  rw [hscope, if_pos ⟨rfl, hx⟩, Scope.bound?, Scope.local?, Table.get?_insert_self]

theorem binding_withName_of_has (hc : h.HasBinding c) : (h.withName x name b).binding c = h.binding c :=
  getD_push.trans (if_neg (Nat.ne_of_lt hc))

theorem prolongs_withName : h.Prolongs (h.withName x name b) := ⟨.of_types_eq rfl, fun _ _ hc => hc, fun _ _ hf => hf⟩

theorem binding_withName : (h.withName x name b).binding ⟨h.bindings.size⟩ = b := getD_push.trans (if_pos rfl)

end Names

/-- Heaps that differ in who refers to what only: the same names are bound to bindings of the same types. -/
structure SameNames (h h' : Heap) : Prop where
  types : h'.types = h.types
  functions : h'.functions = h.functions
  modules : h'.modules = h.modules
  scopes : h'.scopes = h.scopes
  bound : ∀ b, (h'.binding b).type = (h.binding b).type

theorem SameNames.refl (h : Heap) : h.SameNames h := ⟨rfl, rfl, rfl, rfl, fun _ => rfl⟩

theorem SameNames.trans (hs : h.SameNames h') (hs' : h'.SameNames h'') : h.SameNames h'' where
  types := hs'.types.trans hs.types
  functions := hs'.functions.trans hs.functions
  modules := hs'.modules.trans hs.modules
  scopes := hs'.scopes.trans hs.scopes
  bound b := (hs'.bound b).trans (hs.bound b)

theorem SameNames.prolongs (hs : h.SameNames h') : Prolongs h h' := by
  refine ⟨.of_types_eq hs.types, fun f c hc => ?_, fun m path hpath => ?_⟩
  · rw [Heap.function, hs.functions]
    exact hc
  · rw [Heap.module, hs.modules]
    exact hpath

theorem SameNames.scope (hs : h.SameNames h') (x : ScopeId) : h'.scope x = h.scope x := by
  rw [Heap.scope, Heap.scope, hs.scopes]

end Heap

section Everything

/-- A scope has taken over all that a module binds, under names that are not private, and kept the rest. -/
structure Heap.TakesOver (h h' : Heap) (x : ScopeId) (m : ModuleId) : Prop where
  kept : ∀ y name, y ≠ x ∨ isPrivateName name = true ∨ name ∉ (h.scope (h.module m).table).table.keys →
    (h'.scope y).local? name = (h.scope y).local? name
  taken : ∀ name, isPrivateName name = false → name ∈ (h.scope (h.module m).table).table.keys →
    ∃ bs, (name, bs) ∈ (h.scope (h.module m).table).table.entries ∧ (h'.scope x).local? name = some bs

variable {h : Heap}

theorem local_updateName_self (hx : x.index < h.scopes.size) :
    (((updateName x name bs).run h).2.scope x).local? name = some bs := by
  have hscope : ((updateName x name bs).run h).2.scope x = _ := Heap.scope_modify x x
  rw [hscope, if_pos ⟨rfl, hx⟩, Scope.local?, Table.get?_insert_self]

theorem local_updateName_of_ne (hne : y ≠ x ∨ n ≠ name) :
    (((updateName x name bs).run h).2.scope y).local? n = (h.scope y).local? n := by
  have hscope : ((updateName x name bs).run h).2.scope y = _ := Heap.scope_modify x y
  rw [hscope]
  split
  · rename_i hy
    rw [Scope.local?, Scope.local?, Table.get?_insert_of_ne (hne.resolve_left fun hyx => hyx hy.1)]
  · rfl

theorem run_takeOver (es : List (String × List BindingId)) (hx : x.index < h.scopes.size)
    (hrun : ((es.forM fun e => if isPrivateName e.1 then return else updateName x e.1 e.2 : HeapM Unit).run h).2 = h') :
    (∀ y n, y ≠ x ∨ isPrivateName n = true ∨ n ∉ es.map Prod.fst → (h'.scope y).local? n = (h.scope y).local? n) ∧
      ∀ n, isPrivateName n = false → n ∈ es.map Prod.fst → ∃ bs, (n, bs) ∈ es ∧ (h'.scope x).local? n = some bs := by
  induction es generalizing h with
  | nil =>
    subst hrun
    exact ⟨fun _ _ _ => rfl, fun _ _ hn => absurd hn List.not_mem_nil⟩
  | cons e es ih =>
    rw [List.forM_eq_forM, List.forM_cons, StateT.run_bind] at hrun
    obtain ⟨h1, hh1⟩ : ∃ h1, h1 = ((if isPrivateName e.1 then return else updateName x e.1 e.2 : HeapM Unit).run h).2 :=
      ⟨_, rfl⟩
    have hsize : h1.scopes.size = h.scopes.size := by
      rw [hh1]
      split
      · rfl
      · exact Array.size_modify ..
    obtain ⟨hkept, htaken⟩ := ih (hsize ▸ hx) (hh1 ▸ hrun)
    -- The first entry is taken over unless it is private.
    have hstep : ∀ y n, y ≠ x ∨ isPrivateName n = true ∨ n ≠ e.1 → (h1.scope y).local? n = (h.scope y).local? n := by
      intro y n hor
      rw [hh1]
      split
      · rfl
      · rename_i hpublic
        refine local_updateName_of_ne (hor.imp_right fun hor => ?_)
        rintro rfl
        exact hor.elim hpublic fun hne => hne rfl
    refine ⟨fun y n hor => ?_, fun n hn hmem => ?_⟩
    · simp only [List.map_cons, List.mem_cons, not_or] at hor
      rw [hkept y n (by tauto), hstep y n (by tauto)]
    · -- A name that comes again is overwritten by the later entry.
      by_cases hlater : n ∈ es.map Prod.fst
      · obtain ⟨bs, hbs, hlocal⟩ := htaken n hn hlater
        exact ⟨bs, .tail _ hbs, hlocal⟩
      · obtain rfl : n = e.1 := (List.mem_cons.1 hmem).resolve_right hlater
        refine ⟨e.2, .head _, ?_⟩
        rw [hkept x _ (.inr (.inr hlater)), hh1, if_neg (by rw [hn]; decide)]
        exact local_updateName_self hx

theorem importEverything_takesOver (hx : place.scope.index < h.scopes.size) :
    h.TakesOver ((importEverything place m).run h).2 place.scope m := by
  obtain ⟨hkept, htaken⟩ := run_takeOver (h.scope (h.module m).table).table.entries hx rfl
  exact ⟨hkept, htaken⟩

theorem Heap.TakesOver.local_ne_none (ht : h.TakesOver h' x m)
    (he : (h.scope y).local? name ≠ none) : (h'.scope y).local? name ≠ none := by
  by_cases hkept : y ≠ x ∨ isPrivateName name = true ∨ name ∉ (h.scope (h.module m).table).table.keys
  · rwa [ht.kept y name hkept]
  · simp only [not_or, not_not, Bool.not_eq_true] at hkept
    obtain ⟨rfl, hpublic, hkey⟩ := hkept
    obtain ⟨bs, _, hlocal⟩ := ht.taken name hpublic hkey
    simp [hlocal]

theorem bindings_importEverything (place : Place) (m : ModuleId) :
    ((importEverything place m).run h).2.bindings = h.bindings := by
  have hentries : ∀ (es : List (String × List BindingId)) (g : Heap),
      ((es.forM fun e => if isPrivateName e.1 then return else updateName place.scope e.1 e.2 : HeapM Unit).run g).2.bindings =
        g.bindings := by
    intro es
    induction es with
    | nil => exact fun _ => rfl
    | cons e es ih =>
      intro g
      rw [List.forM_eq_forM, List.forM_cons, StateT.run_bind]
      refine (ih _).trans ?_
      split <;> rfl
  exact hentries (h.scope (h.module m).table).table.entries h

end Everything

section Uses

/-- Work that ends well and records uses of names at most. -/
structure Notes {α : Type} (env : Environment) (x : Analysis α) (P : α → Prop) : Prop where
  run : ∀ s, ∃ a s', x.runOn env s = (.ok a, s') ∧ P a ∧ s.heap.SameNames s'.heap ∧ s'.problems = s.problems

namespace Notes

variable {α : Type}

theorem pure (ha : P a) : Notes env (Pure.pure a) P := ⟨fun s => ⟨a, s, rfl, ha, .refl _, rfl⟩⟩

theorem bind (hx : Notes env x P) (hf : ∀ a, P a → Notes env (f a) Q) : Notes env (x >>= f) Q := by
  refine ⟨fun s => ?_⟩
  obtain ⟨a, s1, hrun, ha, hsame, hproblems⟩ := hx.run s
  obtain ⟨b, s2, hrun', hb, hsame', hproblems'⟩ := (hf a ha).run s1
  refine ⟨b, s2, ?_, hb, hsame.trans hsame', hproblems'.trans hproblems⟩
  rw [runOn_bind, hrun]
  exact hrun'

theorem theHeap_bind (hf : ∀ h, Notes env (f h) Q) : Notes env (theHeap >>= f) Q :=
  ⟨fun s => (hf s.heap).run s⟩

theorem change (heap : ∀ s, (c s).heap = s.heap)
    (problems : ∀ s, (c s).problems = s.problems) : Notes env (modify c) fun _ => True :=
  ⟨fun s => ⟨_, c s, rfl, trivial, (heap s).symm ▸ .refl _, problems s⟩⟩

theorem lift {x : HeapM α} (hx : ∀ h : Heap, h.SameNames (x.run h).2) : Notes env (onHeap x) fun _ => True :=
  ⟨fun s => ⟨_, _, rfl, trivial, hx s.heap, rfl⟩⟩

theorem forM (xs : List β) (hf : ∀ x, Notes env (f x) fun _ => True) : Notes env (xs.forM f) fun _ => True := by
  induction xs with
  | nil => exact pure trivial
  | cons x xs ih =>
    rw [List.forM_eq_forM, List.forM_cons]
    exact (hf x).bind fun _ _ => ih

end Notes

theorem addReference_sameNames (b : BindingId) (r : ReferenceId) (h : Heap) :
    h.SameNames ((addReference b r).run h).2 := by
  rw [addReference, StateT.run_bind, StateT.run_get, pure_bind]
  split
  · exact .refl h
  · exact ⟨rfl, rfl, rfl, rfl, fun _ => Heap.type_modify (.inr fun _ => rfl)⟩

theorem recordUse_notes (site : Site) (bindings : List BindingId) (kind : RefKind) :
    Notes env (recordUse site bindings kind) fun _ => True := by
  unfold recordUse
  split
  · exact .pure trivial
  · refine .bind (P := fun _ => True) (.theHeap_bind fun h => ?_) fun r _ => .forM _ fun b => ?_
    · split
      · exact .pure trivial
      · exact .bind (.change (fun _ => rfl) fun _ => rfl) fun _ _ => .lift fun _ => ⟨rfl, rfl, rfl, rfl, fun _ => rfl⟩
    · exact .bind (.change (fun _ => rfl) fun _ => rfl) fun _ _ => .lift fun h => addReference_sameNames b r h

end Uses

section Binding

variable {h : Heap}

theorem exists_insertName (env : Environment) (x : ScopeId) (name : String) (site : Option Site) (type : TypeId)
    (kind : BindingKind) : ∃ describe f, (∀ b, (describe b).type = b.type) ∧
      bindIn x name site type kind = onHeap (insertName x name type kind describe) >>= f ∧
      ∀ r, Notes env (f r) (· = r.1) := by
  refine ⟨_, _, fun b => ?_, rfl, fun r => ?_⟩
  · cases site with
    | none => rfl
    | some site => exact (site.introduce_keeps b).1
  · -- A use is recorded if the name was bound before, and somewhere else.
    dsimp only
    split
    · split
      · refine .theHeap_bind fun h => ?_
        split
        · exact (recordUse_notes ..).bind fun _ _ => .pure rfl
        · exact .pure rfl
      · exact .pure rfl
    · exact .pure rfl

theorem runOn_bindIn (env : Environment) (s : Session) (x : ScopeId) (name : String) (site : Option Site) (type : TypeId)
    (kind : BindingKind) : ∃ describe s', (∀ b, (describe b).type = b.type) ∧
      (bindIn x name site type kind).runOn env s = (.ok ((insertName x name type kind describe).run s.heap).1.1, s') ∧
      ((insertName x name type kind describe).run s.heap).2.SameNames s'.heap ∧ s'.problems = s.problems := by
  obtain ⟨describe, f, hdescribe, heq, hnotes⟩ := exists_insertName env x name site type kind
  obtain ⟨b, s', hrun, rfl, hsame, hproblems⟩ := (hnotes ((insertName x name type kind describe).run s.heap).1).run
    (s.withHeap ((insertName x name type kind describe).run s.heap).2)
  rw [heq]
  exact ⟨describe, s', hdescribe, hrun, hsame, hproblems⟩

theorem prolongs_insertName : h.Prolongs ((insertName x name type kind describe).run h).2 := by
  rcases (h.scope x).bound_cases name with hnone | ⟨c, cs, hbound⟩
  · rw [run_insertName_new hnone]
    exact Heap.prolongs_withName
  · rw [run_insertName_bound hbound]
    obtain ⟨types, heap, hextends⟩ := exists_types_union h (h.binding c).type type
    rw [heap]
    exact ⟨hextends.trans (.of_types_eq rfl), fun _ _ hc => hc, fun _ _ hf => hf⟩

theorem type_insertName (hb : h.HasBinding b) :
    (((insertName x name type kind describe).run h).2.binding b).type = (h.binding b).type ∨
      ∃ bs, (h.scope x).bound? name = some (b :: bs) := by
  rcases (h.scope x).bound_cases name with hnone | ⟨c, cs, hbound⟩
  · left
    rw [run_insertName_new hnone, Heap.binding_withName_of_has hb]
  · by_cases hbc : b = c
    · exact .inr ⟨cs, hbc ▸ hbound⟩
    · left
      rw [run_insertName_bound hbound]
      obtain ⟨types, heap, _⟩ := exists_types_union h (h.binding c).type type
      rw [heap]
      exact Heap.type_modify (.inl hbc)

/-- A name that is bound to a type includes its plain alternatives then, unless it was bound to a union which is taken to
be equal to the type. -/
theorem includes_insertName (hx : x.index < h.scopes.size)
    (hhas : ∀ b bs, (h.scope x).bound? name = some (b :: bs) → h.HasBinding b) (hdescribe : ∀ b, (describe b).type = b.type) (hrun : (insertName x name type kind describe).run h = ((b, existed), h')) :
    (∃ bs, (h'.scope x).bound? name = some (b :: bs)) ∧
      ∀ m ∈ h.members type, (h.ty m).isPlain = true → h'.Includes (h'.binding b).type m ∨
        ∃ bs, (h.scope x).bound? name = some (b :: bs) ∧ h.TakenEqual (h.binding b).type type := by
  rcases (h.scope x).bound_cases name with hnone | ⟨c, cs, hbound⟩
  · -- The new binding has the type itself.
    rw [run_insertName_new hnone, Prod.mk.injEq, Prod.mk.injEq] at hrun
    obtain ⟨⟨rfl, rfl⟩, rfl⟩ := hrun
    refine ⟨⟨[], Heap.bound_withName_self hx⟩, fun m hm hplain => .inl ?_⟩
    rw [Heap.binding_withName, hdescribe]
    exact Heap.prolongs_withName.includes hplain (Heap.includes_self hm)
  · -- The type is merged into that of the first binding of the name.
    have hright := fun m hm hplain =>
      includes_union_right (h := h) (m := m) (u := (h.binding c).type) (v := type) hm hplain
    obtain ⟨types, heap, hextends⟩ := exists_types_union h (h.binding c).type type
    rw [run_insertName_bound hbound, Prod.mk.injEq, Prod.mk.injEq] at hrun
    obtain ⟨⟨rfl, rfl⟩, rfl⟩ := hrun
    rcases hmerge : (union (h.binding c).type type).run h with ⟨w, h1⟩
    rw [hmerge] at hright heap
    subst heap
    refine ⟨⟨cs, hbound⟩, fun m hm hplain => ?_⟩
    rcases hright m hm hplain with hi | htaken
    · left
      have htype : ((Heap.retyped { h with types } c w).binding c).type = w := Heap.type_retyped (hhas c cs hbound)
      have hprolongs : h.Prolongs { h with types } := ⟨hextends, fun _ _ hc => hc, fun _ _ hf => hf⟩
      rw [htype]
      refine Heap.prolongs_retyped.includes ?_ hi
      rwa [hprolongs.ty_eq hplain]
    · exact .inr ⟨cs, hbound, htaken⟩

end Binding

end Concordance
