import Concordance.Graph.Subscript
import Concordance.Proofs.Heap.Work
import Concordance.Proofs.Table

/-!
# Operations on the type graph

What containers, scopes, bindings, objects, classes and modules are made by, as rows of changes.
-/

namespace Concordance

open Heap (Evolves)

variable {s : ScopeId} {name : String}

variable {h : Heap} {t : TypeId}

section Recipes

mutual

theorem build_value : ∀ {h : Heap} (r : Recipe), r.Plain → Does h (build r) fun t h' => h'.IsValue t
  | _, .existing _, hr => .of_sound fun hs => by
    rw [Recipe.Plain] at hr
    exact .pure (hs.isValue_singleton hr.1 hr.2)
  | _, .list e, hr => by
    rw [Recipe.Plain] at hr
    exact (build_value e hr).bind fun _ _ _ hv => newList_value hv
  | _, .tuple es, hr => by
    rw [Recipe.Plain] at hr
    exact (buildAll_value es hr).bind fun _ _ _ hv => newTuple_value hv
  | _, .dict k v, hr => by
    rw [Recipe.Plain] at hr
    refine (build_value k hr.1).bind fun _ _ _ hk => ?_
    exact (build_value v hr.2).bind fun _ _ he hv => newDict_value (he.isValue hk) hv
  | _, .union ms, hr => by
    rw [Recipe.Plain] at hr
    exact (buildAll_value ms hr).bind fun _ _ _ hv => unionOf_value hv
  | _, .rawUnion _, hr => by
    rw [Recipe.Plain] at hr
    exact hr.elim

theorem buildAll_value : ∀ {h : Heap} (rs : List Recipe), Recipe.AllPlain rs →
    Does h (buildAll rs) fun ts h' => ∀ t ∈ ts, h'.IsValue t
  | _, [], _ => .pure (by simp)
  | _, r :: rs, hr => by
    rw [Recipe.AllPlain] at hr
    refine (build_value r hr.1).bind fun t h' _ ht => ?_
    refine (buildAll_value rs hr.2).bind fun ts h'' he hts => .pure ?_
    intro u hu
    rcases List.mem_cons.1 hu with rfl | hu
    · exact he.isValue ht
    · exact hts u hu

end

theorem nativeResult_value (f : FunctionId) : Does h (nativeResult f) fun t h' => h'.IsValue t := by
  refine .of_sound fun hs => .get_bind ?_
  split
  · rename_i r hr
    exact build_value r ((hs.functions f).native r hr)
  · exact .pure hs.isValue_unknown

end Recipes

section Containers

/-- A list takes another element, and a shape of elements it has with the new one. -/
theorem setList_does (hs : h.IsSound) (hty : h.ty t = .list e shape) (hv : h.IsValue v) {es : Option (List TypeId)}
    (hes : ∀ x ∈ es.getD [], x ∈ shape.getD [] ∨ x = v) :
    Does h (union e v >>= fun w => setType t (.list w es)) fun _ _ => True := by
  have hfits := hs.types t
  rw [hty] at hfits
  refine (union_value hfits.1 hv).bind fun w h' he hw => ?_
  obtain ⟨e', shape', hty'⟩ := he.toExtends.list hty
  refine .change (.widen t _ ⟨hw, fun x hx => he.isValue ?_⟩ (by rw [hty']; trivial)) trivial
  exact (hes x hx).elim (hfits.2 x) (· ▸ hv)

theorem addElement_does (hv : h.IsValue v) : Does h (addElement t v) fun _ _ => True := by
  refine .of_sound fun hs => .get_bind ?_
  split
  · rename_i e shape hty
    refine setList_does hs hty hv fun x hx => ?_
    cases shape <;> simp_all
  · exact .pure trivial

theorem widenList_does (hv : h.IsValue v) : Does h (widenList t v) fun _ _ => True := by
  refine .of_sound fun hs => .get_bind ?_
  split
  · rename_i e shape hty
    exact setList_does hs hty hv (by simp)
  · exact .pure trivial

theorem addEntry_does (hu : h.IsValue u) (hv : h.IsValue v) : Does h (addEntry t u v) fun _ _ => True := by
  refine .of_sound fun hs => .get_bind ?_
  split
  · rename_i k w hty
    have hfits := hs.types t
    rw [hty] at hfits
    refine (union_value hfits.1 hu).bind fun keys h1 he1 hk => ?_
    obtain ⟨k1, w1, hty1⟩ := he1.toExtends.dict hty
    have hset : Does h1 (setType t (.dict keys w)) fun _ _ => True :=
      .change (.widen t _ ⟨hk, he1.isValue hfits.2⟩ (by rw [hty1]; trivial)) trivial
    refine hset.bind fun _ h2 he2 _ => ?_
    have he12 := he1.trans he2
    refine (union_value (he12.isValue hfits.2) (he12.isValue hv)).bind fun values h3 he3 hvalues => ?_
    obtain ⟨k3, w3, hty3⟩ := (he12.trans he3).toExtends.dict hty
    exact .change (.widen t _ ⟨(he2.trans he3).isValue hk, hvalues⟩ (by rw [hty3]; trivial)) trivial
  · exact .pure trivial

theorem listOf_value (hv : h.IsValue v) : Does h (listOf v) fun t h' => h'.IsValue t := by
  refine .of_sound fun hs => .get_bind ?_
  have hfits := hs.types v
  split
  · rename_i es hty
    rw [hty] at hfits
    exact (unionAll_value hfits).bind fun _ _ _ hw => newList_value hw
  · rename_i k w hty
    rw [hty] at hfits
    exact newList_value hfits.2
  · exact .pure hv

theorem bindReceiver_value (hv : h.IsValue v) : Does h (bindReceiver f v) fun t h' => h'.IsValue t :=
  newType_value _ (by rintro r ⟨⟩; exact hv) trivial (by simp)

end Containers

section Scopes

theorem modifyScope_does (alters : h.Alters s change) :
    Does h (modifyScope s change) fun _ _ => True := .change (.changeScope s change alters) trivial

theorem Heap.Alters.ite {c : Scope → Prop} [DecidablePred c] (ha : h.Alters s change) :
    h.Alters s fun x => if c x then x else change x where
  frame x := by split; exacts [⟨rfl, rfl, rfl, rfl⟩, ha.frame x]
  globals x name hname := by split; exacts [hname, ha.globals x name hname]
  nonlocals x name hname := by split; exacts [hname, ha.nonlocals x name hname]
  kept hs x name hname := by split; exacts [hname, ha.kept hs x name hname]
  entries x bs hbs := by split at hbs; exacts [.inl hbs, ha.entries x bs hbs]

theorem newScope_does (scope : Scope) (empty : scope.table = {}) : Does h (newScope scope) fun _ _ => True :=
  ⟨fun _ => ⟨.single (.newScope scope empty), trivial⟩⟩

theorem updateName_does (s : ScopeId) (name : String) (hb : h.HasBinding b) :
    Does h (updateName s name [b]) fun _ _ => True := by
  refine modifyScope_does ⟨fun _ => ⟨rfl, rfl, rfl, rfl⟩, fun _ _ hn => hn, fun _ _ hn => hn, fun _ x other hother => ?_,
    fun x bs hbs => ?_⟩
  · exact Table.get?_insert_ne_none hother
  · exact (Table.mem_values_insert hbs).elim (fun heq => .inr (.inl ⟨b, heq, hb⟩)) .inl

theorem removeName_does (name : String) : Does h (removeName Session.moduleTable name) fun _ _ => True :=
  modifyScope_does ⟨fun _ => ⟨rfl, rfl, rfl, rfl⟩, fun _ _ hn => hn, fun _ _ hn => hn, fun hne => absurd rfl hne,
    fun _ _ hbs => .inl (Table.mem_values_of_erase hbs)⟩

theorem declareGlobal_does (s : ScopeId) (name : String) : Does h (declareGlobal s name) fun _ _ => True :=
  modifyScope_does (.ite ⟨fun _ => ⟨rfl, rfl, rfl, rfl⟩, fun _ _ => List.mem_append_left _, fun _ _ hn => hn,
    fun _ _ _ hn => hn, fun _ _ => .inl⟩)

theorem declareNonlocal_does (s : ScopeId) (name : String) : Does h (declareNonlocal s name) fun _ _ => True :=
  modifyScope_does (.ite ⟨fun _ => ⟨rfl, rfl, rfl, rfl⟩, fun _ _ hn => hn, fun _ _ => List.mem_append_left _,
    fun _ _ _ hn => hn, fun _ _ => .inl⟩)

theorem addSuper_does (s super : ScopeId) : Does h (addSuper s super) fun _ _ => True :=
  modifyScope_does (.ite ⟨fun _ => ⟨rfl, rfl, rfl, rfl⟩, fun _ _ hn => hn, fun _ _ hn => hn, fun _ _ _ hn => hn,
    fun _ _ => .inl⟩)

theorem Scope.IsSound.bound {s : Scope} (hs : s.IsSound h)     (hbs : s.bound? name = some bs) : ∀ b ∈ bs, h.HasBinding b := by
  unfold Scope.bound? at hbs
  split at hbs
  · rename_i heq
    cases hbs
    exact hs _ (Table.mem_values_of_get? heq)
  · cases hbs

theorem Heap.found_of_walkFrom {found : ScopeId → Option α} {a : α} {P : ScopeId → Prop}
    (module : ∀ s, P s → P (h.moduleScope s)) (outward : ∀ s p, P s → h.outward s = some p → P p) (fuel : Nat)
    (hs : P s) (ha : h.walkFrom name found fuel s = some a) : ∃ s', P s' ∧ found s' = some a := by
  induction fuel generalizing s with
  | zero => cases ha
  | succ fuel ih =>
    rw [Heap.walkFrom] at ha
    split at ha
    · rename_i heq
      exact ⟨s, hs, heq.trans ha⟩
    · dsimp only at ha
      split at ha
      · exact ih (module s hs) ha
      · split at ha
        · cases ha
        · rename_i p hp
          exact ih (outward s p hs hp) ha

theorem exists_of_findSomeM? {α : Type} {f : α → StateM σ (Option β)} {b : β} (xs : List α) {st : σ}
    (hb : ((xs.findSomeM? f).run st).1 = some b) : ∃ x ∈ xs, ∃ st', ((f x).run st').1 = some b := by
  induction xs generalizing st with
  | nil => cases hb
  | cons x xs ih =>
    rw [List.findSomeM?_cons, StateT.run_bind] at hb
    rcases hx : (f x).run st with ⟨_ | c, st'⟩ <;> rw [hx] at hb
    · obtain ⟨y, hy, hrest⟩ := ih hb
      exact ⟨y, .tail _ hy, hrest⟩
    · exact ⟨x, .head _, st, hx ▸ hb⟩

theorem Heap.bound_of_attrFrom (fuel : Nat) (hbs : ((h.attrFrom name fuel s).run visited).1 = some bs) :
    ∃ s', (h.scope s').bound? name = some bs := by
  induction fuel generalizing s visited with
  | zero => cases hbs
  | succ fuel ih =>
    rw [attrFrom, StateT.run_bind, StateT.run_get, pure_bind] at hbs
    dsimp only at hbs
    split at hbs
    · cases hbs
    · rw [StateT.run_bind, StateT.run_modify, pure_bind] at hbs
      split at hbs
      · rename_i heq
        exact ⟨s, heq.trans hbs⟩
      · obtain ⟨_, _, _, hsome⟩ := exists_of_findSomeM? _ hbs
        exact ih hsome

theorem Heap.bound_of_lookup (hbs : h.lookup s name = some bs) :
    ∃ s', (h.scope s').bound? name = some bs := by
  obtain ⟨s', _, hbound⟩ := Heap.found_of_walkFrom (P := fun _ => True) (fun _ _ => trivial) (fun _ _ _ _ => trivial) _
    trivial hbs
  exact ⟨s', hbound⟩

theorem Heap.IsSound.lookup (hs : h.IsSound)     (hbs : h.lookup s name = some bs) : ∀ b ∈ bs, h.HasBinding b := by
  obtain ⟨s', hbound⟩ := Heap.bound_of_lookup hbs
  exact (hs.scopes s').bound hbound

theorem Heap.IsSound.attrOf (hs : h.IsSound)     (hbs : h.attrOf t name = some bs) : ∀ b ∈ bs, h.HasBinding b := by
  unfold Heap.attrOf at hbs
  split at hbs
  · cases hbs
  · obtain ⟨s', hbound⟩ := Heap.bound_of_attrFrom _ hbs
    exact (hs.scopes s').bound hbound

theorem insertName_does (hv : h.IsValue v) (hd : ∀ b, (describe b).type = b.type ∧ (describe b).refs = b.refs) :
    Does h (insertName s name v kind describe) fun r h' => h'.HasBinding r.1 := by
  refine .of_sound fun hs => .get_bind ?_
  split
  · rename_i b bs hbound
    have hb : h.HasBinding b := (hs.scopes s).bound hbound b (.head _)
    refine (does_union (hs.bindings b).has hv.has).bind fun w h' he hm => ?_
    have hkeeps : h'.Keeps (h'.binding b).type w := by
      rw [hm.only.binding]
      exact hm.keeps hs he (hs.bindings b).has hv.has
    have hset : Does h' (modifyBinding b fun binding => { binding with type := w }) fun _ _ => True :=
      .change (.retype b w (hm.isValue (hs.bindings b) hv) hkeeps) trivial
    exact hset.bind fun _ _ he' _ => .pure ((he.trans he').hasBinding hb)
  · have hnew : ∀ b : Binding, b.type = v → b.refs = [] → Does h (newBinding b) fun b' h' => h'.HasBinding b' :=
      fun b hb hrefs => ⟨fun _ => ⟨.single (.newBinding b (hb ▸ hv) hrefs),
        Nat.lt_of_lt_of_eq (Nat.lt_succ_self _) (Array.size_push _).symm⟩⟩
    refine (hnew _ (hd _).1 (hd _).2).bind fun b h' _ hb => ?_
    exact (updateName_does s name hb).bind fun _ _ he _ => .pure (he.hasBinding hb)

theorem typeOfBindings_value (bs : List BindingId) : Does h (typeOfBindings bs) fun t h' => h'.IsValue t :=
  .of_sound fun hs => .foldlM (I := fun w h' => h'.IsValue w) bs
    (fun b _ _ _ _ ha => .of_sound fun hs' => .get_bind (union_value ha (hs'.bindings b))) hs.isValue_unknown

end Scopes

section Objects

theorem newObject_run (h : Heap) (c : ClassId) : (newObject c).run h =
    (⟨h.types.size⟩, { h with
      types := h.types.push (.object c ⟨h.scopes.size⟩)
      scopes := h.scopes.push
        { kind := .object, path := (h.scope (h.cls c).table).path, supers := [(h.cls c).table]
          owner := some ⟨h.types.size⟩ } }) := by
  have hset : (h.types.push .unknown).setIfInBounds h.types.size (.object c ⟨h.scopes.size⟩)
      = h.types.push (.object c ⟨h.scopes.size⟩) := by
    apply Array.ext_getElem?
    intro i
    rw [Array.getElem?_setIfInBounds, Array.getElem?_push, Array.getElem?_push, Array.size_push]
    grind
  rw [← hset]
  rfl

theorem newObject_value (c : ClassId) : Does h (newObject c) fun t h' => h'.IsValue t := by
  refine ⟨fun hs => ?_⟩
  obtain ⟨he, hv⟩ := (newType_value (h := h) (.object c ⟨h.scopes.size⟩) trivial trivial (by simp)).run hs
  have he' := Heap.Evolves.single (.newScope
    { kind := .object, path := (h.scope (h.cls c).table).path, supers := [(h.cls c).table]
      owner := some ⟨h.types.size⟩ } rfl (h := ((newType (.object c ⟨h.scopes.size⟩)).run h).2))
  rw [newObject_run]
  exact ⟨he.trans he', he'.isValue hv⟩

theorem canonOf_value (c : ClassId) : Does h (canonOf c) fun t h' => h'.IsValue t := by
  refine .of_sound fun hs => .get_bind ?_
  split
  · rename_i t ht
    exact .pure ((hs.classes c).canon t ht)
  · refine (newObject_value c).bind fun t h' _ ht => ?_
    have hset : Does h' (modifyClass c fun cls => { cls with canon := some t }) fun _ _ => True := by
      refine .change (.changeClass c _ (fun _ => ⟨rfl, rfl, rfl⟩) fun x hx => ⟨hx.type, ?_, hx.factory⟩)
        trivial
      rintro u ⟨⟩
      exact ht
    exact hset.bind fun _ _ he _ => .pure (he.isValue ht)

theorem newClass_does (name : String) (parent : Option ScopeId) : Does h (newClass name parent) fun _ _ => True := by
  refine .get_bind ((newType_value (.classObject _) trivial trivial (by simp)).bind fun t h1 _ ht => ?_)
  refine (newScope_does _ rfl).bind fun s h2 he _ => ?_
  have hpush : Does h2 (modify fun h : Heap =>
      { h with classes := h.classes.push { name, type := t, table := s } }) fun _ _ => True :=
    .change (.newClass _ ⟨he.isValue ht, by simp, by simp⟩) trivial
  exact hpush.bind fun _ _ _ _ => .pure trivial

theorem addBase_does (c : ClassId) (base : TypeId) : Does h (addBase c base) fun _ _ => True := by
  have hset : Does h (modifyClass c fun cls => { cls with superclass := some base }) fun _ _ => True :=
    .change (.changeClass c _ (fun _ => ⟨rfl, rfl, rfl⟩) fun _ hx => ⟨hx.type, hx.canon, hx.factory⟩) trivial
  refine hset.bind fun _ h' _ _ => .get_bind ?_
  split
  · exact addSuper_does ..
  · exact .pure trivial

theorem newModule_does (name : String) (file : Option String) (parent : Option ScopeId) (qname : String) :
    Does h (newModule name file parent qname) fun m h' =>
      m.index = h.modules.size ∧ m.index < h'.modules.size := by
  refine ⟨fun _ => ⟨?_, rfl, Nat.lt_of_lt_of_eq (Nat.lt_succ_self _) (Array.size_push _).symm⟩⟩
  -- The scope is made first; then the module and its type are there at once.
  exact (Evolves.single (.newScope _ rfl)).trans (.single (.newModule _ rfl))

end Objects

end Concordance
