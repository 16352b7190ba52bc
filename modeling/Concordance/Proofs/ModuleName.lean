import Concordance.Proofs.Files

/-!
# Names of modules

The module of a file goes by the segments of the path, joined by dots. On the way the suffix is dropped, a package file
goes by its directory, and dots in segments are written `%20`.
-/

namespace Concordance

namespace Text

def writeDots (cs : List Char) : List Char := cs.flatMap fun c => if c = '.' then ['%', '2', '0'] else [c]

def readDots : List Char → List Char
  | '%' :: '2' :: '0' :: cs => '.' :: readDots cs
  | c :: cs => c :: readDots cs
  | [] => []

theorem writeDots_dot (cs : List Char) : writeDots ('.' :: cs) = '%' :: '2' :: '0' :: writeDots cs := rfl

theorem writeDots_cons (hc : c ≠ '.') (cs : List Char) : writeDots (c :: cs) = c :: writeDots cs := by
  simp [writeDots, hc]

theorem dot_not_mem_writeDots (cs : List Char) : '.' ∉ writeDots cs := by
  intro hmem
  obtain ⟨c, _, hc⟩ := List.mem_flatMap.1 hmem
  split at hc
  · simp at hc
  · rename_i hne
    exact hne (List.mem_singleton.1 hc).symm

theorem writeDots_eq_nil : writeDots cs = [] ↔ cs = [] := by
  cases cs with
  | nil => simp [writeDots]
  | cons c cs =>
    by_cases hc : c = '.'
    · simp [hc, writeDots_dot]
    · simp [writeDots_cons hc]

theorem readDots_cons (h : ¬ (c = '%' ∧ ['2', '0'] <+: cs)) : readDots (c :: cs) = c :: readDots cs := by
  rw [readDots]
  rintro rest rfl rfl
  exact h ⟨rfl, rest, rfl⟩

theorem writeDots_readDots (cs : List Char) : writeDots (readDots cs) = writeDots cs := by
  induction cs using readDots.induct with
  | case1 cs ih => rw [readDots, writeDots_dot, ih]; rfl
  | case2 c cs hnot ih =>
    rw [readDots.eq_2 c cs hnot]
    show _ ++ writeDots (readDots cs) = _ ++ writeDots cs
    rw [ih]
  | case3 => rfl

/-- What an escaped text begins with is not new, unless it begins an escaped dot. -/
theorem exists_of_writeDots_eq_cons (hc : c ≠ '%') (h : writeDots cs = c :: rest) :
    ∃ cs', cs = c :: cs' ∧ writeDots cs' = rest := by
  cases cs with
  | nil => cases h
  | cons d cs =>
    by_cases hd : d = '.'
    · rw [hd, writeDots_dot] at h
      exact absurd (List.cons.inj h).1.symm hc
    · rw [writeDots_cons hd] at h
      obtain ⟨rfl, hrest⟩ := List.cons.inj h
      exact ⟨cs, rfl, hrest⟩

theorem readDots_writeDots (cs : List Char) : readDots (writeDots cs) = readDots cs := by
  induction cs using readDots.induct with
  | case1 cs ih =>
    show '.' :: readDots (writeDots cs) = '.' :: readDots cs
    rw [ih]
  | case2 c cs hnot ih =>
    rw [readDots.eq_2 c cs hnot]
    by_cases hc : c = '.'
    · rw [hc, writeDots_dot, readDots, ih]
    · rw [writeDots_cons hc, readDots_cons, ih]
      rintro ⟨rfl, hpre⟩
      obtain ⟨rest, hrest⟩ := hpre
      obtain ⟨cs1, rfl, h1⟩ := exists_of_writeDots_eq_cons (by decide) hrest.symm
      obtain ⟨cs2, rfl, _⟩ := exists_of_writeDots_eq_cons (by decide) h1
      exact hnot cs2 rfl rfl
  | case3 => rfl

theorem readDots_of_unescaped (h : ¬ ['%', '2', '0'] <:+: cs) : readDots cs = cs := by
  induction cs with
  | nil => rfl
  | cons c cs ih =>
    rw [readDots_cons, ih fun hin => h (hin.trans (List.suffix_cons c cs).isInfix)]
    rintro ⟨rfl, rest, rfl⟩
    exact h (List.prefix_append ['%', '2', '0'] rest).isInfix

/-- Pieces that are not empty and hold no separator can be told from the text that they are joined to. -/
theorem intercalate_inj {xs ys : List (List Char)} (hx : ∀ x ∈ xs, x ≠ [] ∧ sep ∉ x)
    (hy : ∀ y ∈ ys, y ≠ [] ∧ sep ∉ y) (h : [sep].intercalate xs = [sep].intercalate ys) : xs = ys := by
  -- Nothing but the empty row of pieces is joined to the empty text.
  have hnil : ∀ {zs : List (List Char)}, (∀ z ∈ zs, z ≠ [] ∧ sep ∉ z) → [sep].intercalate [] = [sep].intercalate zs →
      zs = [] := by
    intro zs hz heq
    by_contra hne
    have hsplit := split_intercalate hne fun z hmem => (hz z hmem).2
    rw [← heq] at hsplit
    exact (hz [] (hsplit ▸ List.mem_singleton_self _)).1 rfl
  by_cases hxs : xs = []
  · rw [hxs] at h ⊢
    exact (hnil hy h).symm
  · by_cases hys : ys = []
    · rw [hys] at h
      exact absurd (hnil hx h.symm) hxs
    · rw [← split_intercalate hxs fun x hmem => (hx x hmem).2, h, split_intercalate hys fun y hmem => (hy y hmem).2]

end Text

attribute [ext] Path

namespace Path

open Text (readDots writeDots)

variable {p q : Path}

section Suffix

theorem splitSuffix_append (name : String) :
    (splitSuffix name).1 ++ (splitSuffix name).2 = name ∧ (name ≠ "" → (splitSuffix name).1 ≠ "") := by
  have hback : name.toList.reverse.takeWhile (· != '.') ++ name.toList.reverse.dropWhile (· != '.') =
      name.toList.reverse := List.takeWhile_append_dropWhile
  have hdot : ∀ c, (name.toList.reverse.dropWhile (· != '.')).head? = some c → c = '.' := by
    intro c hc
    have hnot := List.head?_dropWhile_not (· != '.') name.toList.reverse
    rw [hc] at hnot
    simpa using hnot
  unfold splitSuffix
  dsimp only
  rw [List.span_eq_takeWhile_dropWhile]
  split
  · exact ⟨String.append_empty, id⟩
  · exact ⟨String.append_empty, id⟩
  · exact ⟨String.append_empty, id⟩
  · -- The rest from the last dot on has a stem before it.
    rename_i ext c stem _ hlone hspan
    obtain ⟨hext, hstem⟩ := Prod.mk.inj hspan
    obtain rfl := hdot c (by rw [hstem]; rfl)
    rw [hext, hstem] at hback
    constructor
    · apply String.ext
      rw [String.toList_append, String.toList_ofList, String.toList_ofList, ← List.reverse_inj, ← hback]
      simp
    · intro _ hempty
      have hnil : stem = [] := by simpa using hempty
      exact hlone rfl hnil

theorem stem_append_suffix (p : Path) : p.stem ++ p.suffix = p.name := (splitSuffix_append p.name).1

theorem stem_ne_empty (hp : p.name ≠ "") : p.stem ≠ "" := (splitSuffix_append p.name).2 hp

end Suffix

section Name

/-- The path that a file gives its name to: without the suffix of a source file, and that of the directory for a package
file. -/
def modulePath (p : Path) : Path :=
  if p.name = packageFile then p.parent else if p.suffix = ".py" then p.withoutSuffix else p

theorem qualifiedName_eq (p : Path) : p.qualifiedName = ".".intercalate (p.modulePath.parts.map escapeDots) := rfl

theorem modulePath_root (p : Path) : p.modulePath.root = p.root := by
  unfold modulePath
  split
  · rfl
  · split <;> rfl

/-- Two files whose paths give the same name if every `%20` in it is read as a dot. -/
def Confusable (p q : Path) : Prop :=
  p.modulePath.parts.map (readDots ∘ String.toList) = q.modulePath.parts.map (readDots ∘ String.toList)

theorem toList_escapeDots (segment : String) : (escapeDots segment).toList = writeDots segment.toList :=
  String.toList_ofList

theorem name_mem (hne : p.parts ≠ []) : p.name ∈ p.parts := by
  rw [name, List.getLast?_eq_getLast_of_ne_nil hne]
  exact List.getLast_mem hne

theorem name_ne_empty (hp : p.IsClean) (hne : p.parts ≠ []) : p.name ≠ "" := (hp _ (name_mem hne)).1

theorem ne_empty_of_mem_modulePath (hp : p.IsClean) {segment : String} (hs : segment ∈ p.modulePath.parts) : segment ≠ "" := by
  have hparent : ∀ s ∈ p.parent.parts, s ≠ "" := fun s hs => (hp s ((List.dropLast_sublist _).subset hs)).1
  rw [modulePath] at hs
  split at hs
  · exact hparent _ hs
  · split at hs
    · rename_i hsuffix
      rcases List.mem_append.1 hs with hs | hs
      · exact hparent _ hs
      · rw [List.mem_singleton.1 hs]
        refine stem_ne_empty (name_ne_empty hp fun hnil => ?_)
        -- A path without a segment has no suffix.
        rw [suffix, name, hnil] at hsuffix
        revert hsuffix
        decide
    · exact (hp _ hs).1

theorem qualifiedName_eq_iff (hp : p.IsClean) (hq : q.IsClean) : p.qualifiedName = q.qualifiedName ↔ p.Confusable q := by
  have htext : ∀ r : Path, r.qualifiedName.toList =
      ['.'].intercalate (r.modulePath.parts.map (writeDots ∘ String.toList)) := by
    intro r
    rw [qualifiedName_eq, String.toList_intercalate, List.map_map]
    simp only [Function.comp_def, toList_escapeDots]
    rfl
  have hpieces : ∀ r : Path, r.IsClean → ∀ x ∈ r.modulePath.parts.map (writeDots ∘ String.toList), x ≠ [] ∧ '.' ∉ x := by
    intro r hr x hx
    obtain ⟨segment, hs, rfl⟩ := List.mem_map.1 hx
    refine ⟨fun hnil => ne_empty_of_mem_modulePath hr hs ?_, Text.dot_not_mem_writeDots _⟩
    exact String.toList_eq_nil_iff.1 (Text.writeDots_eq_nil.1 hnil)
  -- Segments written one way are got from those written the other way.
  have hread : ∀ r : Path, r.modulePath.parts.map (readDots ∘ String.toList) =
      (r.modulePath.parts.map (writeDots ∘ String.toList)).map readDots := by
    intro r
    simp [Text.readDots_writeDots]
  have hwrite : ∀ r : Path, r.modulePath.parts.map (writeDots ∘ String.toList) =
      (r.modulePath.parts.map (readDots ∘ String.toList)).map writeDots := by
    intro r
    simp [Text.writeDots_readDots]
  constructor
  · intro h
    have hsame := Text.intercalate_inj (hpieces p hp) (hpieces q hq) (by rw [← htext, h, htext])
    rw [Confusable, hread, hsame, ← hread]
  · intro h
    apply String.ext
    rw [Confusable] at h
    rw [htext, htext, hwrite, h, ← hwrite]

end Name

section Source

/-- A canonical path of a source file. -/
structure IsSource (p : Path) : Prop where
  absolute : p.root = "/"
  names : ∀ s ∈ p.parts, IsName s
  suffix : p.suffix = ".py"

theorem IsSource.isClean (hp : p.IsSource) : p.IsClean := fun s hs =>
  ⟨(hp.names s hs).ne_empty, (hp.names s hs).ne_dot, (hp.names s hs).no_slash⟩

theorem IsSource.parts_ne_nil (hp : p.IsSource) : p.parts ≠ [] := by
  intro hnil
  have hsuffix := hp.suffix
  rw [Path.suffix, name, hnil] at hsuffix
  revert hsuffix
  decide

theorem child_name (hne : p.parts ≠ []) : p.parent.child p.name = p := by
  rw [child, parent, name, List.getLast?_eq_getLast_of_ne_nil hne]
  exact congrArg (Path.mk p.root) (List.dropLast_append_getLast hne)

/-- One file is beside a directory of the same name, and the other one makes this directory a package. -/
def Twins (p q : Path) : Prop := p.name ≠ packageFile ∧ q = p.withoutSuffix.child packageFile

theorem child_inj {d d' : Path} (h : d.child x = d'.child x') : d = d' ∧ x = x' := by
  obtain ⟨hroot, hparts⟩ := Path.mk.inj h
  obtain ⟨hinit, hlast⟩ := List.concat_inj.1 (by simpa using hparts)
  exact ⟨Path.ext hroot hinit, hlast⟩

theorem IsSource.modulePath_eq (hp : p.IsSource) :
    p.modulePath = if p.name = packageFile then p.parent else p.withoutSuffix := by
  rw [modulePath, if_pos hp.suffix]

theorem modulePath_eq_iff (hp : p.IsSource) (hq : q.IsSource) :
    p.modulePath = q.modulePath ↔ p = q ∨ p.Twins q ∨ q.Twins p := by
  have hname : ∀ r : Path, r.IsSource → r.name = r.stem ++ ".py" := fun r hr => by rw [← hr.suffix, stem_append_suffix]
  rw [hp.modulePath_eq, hq.modulePath_eq]
  constructor
  · intro h
    split at h <;> split at h
    · rename_i hpn hqn
      refine .inl ?_
      rw [← child_name hp.parts_ne_nil, ← child_name hq.parts_ne_nil, h, hpn, hqn]
    · rename_i hpn hqn
      refine .inr (.inr ⟨hqn, ?_⟩)
      rw [← h, ← hpn, child_name hp.parts_ne_nil]
    · rename_i hpn hqn
      refine .inr (.inl ⟨hpn, ?_⟩)
      rw [h, ← hqn, child_name hq.parts_ne_nil]
    · -- The suffix is known, so the stem tells the name.
      obtain ⟨hparent, hstem⟩ := child_inj h
      refine .inl ?_
      rw [← child_name hp.parts_ne_nil, ← child_name hq.parts_ne_nil, hparent, hname p hp, hname q hq, hstem]
  · have htwins : ∀ {r t : Path}, r.Twins t → t.name = packageFile ∧ t.parent = r.withoutSuffix := by
      rintro r _ ⟨_, rfl⟩
      exact ⟨by simp [name, child], by simp [parent, child]⟩
    rintro (rfl | htwin | htwin)
    · rfl
    · obtain ⟨hqn, hparent⟩ := htwins htwin
      rw [if_neg htwin.1, if_pos hqn, hparent]
    · obtain ⟨hpn, hparent⟩ := htwins htwin
      rw [if_neg htwin.1, if_pos hpn, hparent]

def Unescaped (p : Path) : Prop := ∀ s ∈ p.parts, ¬ ['%', '2', '0'] <:+: s.toList

theorem Unescaped.modulePath (hu : p.Unescaped) (hp : p.IsSource) : p.modulePath.Unescaped := by
  intro s hs
  have hparent : ∀ s ∈ p.parent.parts, ¬ ['%', '2', '0'] <:+: s.toList := fun s hs =>
    hu s ((List.dropLast_sublist _).subset hs)
  rw [hp.modulePath_eq] at hs
  split at hs
  · exact hparent s hs
  · rcases List.mem_append.1 hs with hs | hs
    · exact hparent s hs
    · -- The stem is a part of the name.
      rw [List.mem_singleton.1 hs]
      refine fun hin => hu _ (name_mem hp.parts_ne_nil) (hin.trans ?_)
      rw [← stem_append_suffix, String.toList_append]
      exact (List.prefix_append _ _).isInfix

/-- Source files without escaped dots in their paths have one qualified name just if they are the same, or one of them is
the package file of the directory beside the other. -/
theorem qualifiedName_eq_iff_of_unescaped (hp : p.IsSource) (hq : q.IsSource) (hpu : p.Unescaped) (hqu : q.Unescaped) :
    p.qualifiedName = q.qualifiedName ↔ p = q ∨ p.Twins q ∨ q.Twins p := by
  have hparts : ∀ r : Path, r.IsSource → r.Unescaped → r.modulePath.parts.map (readDots ∘ String.toList) =
      r.modulePath.parts.map String.toList := fun r hsource hr =>
    List.map_congr_left fun s hs => Text.readDots_of_unescaped (hr.modulePath hsource s hs)
  rw [qualifiedName_eq_iff hp.isClean hq.isClean, Confusable, hparts p hp hpu, hparts q hq hqu,
    ← modulePath_eq_iff hp hq]
  constructor
  · intro h
    have hsegments := List.map_injective_iff.2 (fun _ _ => String.toList_injective) h
    exact Path.ext (by rw [modulePath_root, modulePath_root, hp.absolute, hq.absolute]) hsegments
  · intro h
    rw [h]

end Source

end Path

end Concordance
