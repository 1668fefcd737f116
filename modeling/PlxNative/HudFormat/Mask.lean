import PlxNative.HudFormat.Markup

/-! The assets that are accepted: one root, and its paths. -/
namespace PlxNative.HudFormat.Svg
open List Text Nat

section
variable {F : Type} [Floats F]

/-- The attributes of the root of an asset. -/
structure RootAttrs (attrs : List (Text × Text)) (box : ViewBox F) : Prop where
  once : (attrs.map Prod.fst).Nodup
  viewBox : ∃ value, ("viewBox".toList, value) ∈ attrs ∧ parseViewBox value = .ok box
  allowed : ∀ a ∈ attrs, a.1 = "viewBox".toList ∨ a.1 = "xmlns".toList ∧ a.2 = svgNamespace ∨
    a.1 = "fill".toList ∧ isMaskWhite a.2 = true

structure PathAttrs (attrs : List (Text × Text)) : Prop where
  once : (attrs.map Prod.fst).Nodup
  data : ∃ value, ("d".toList, value) ∈ attrs
  allowed : ∀ a ∈ attrs, a.1 = "d".toList ∧ trimAscii a.2 ≠ [] ∧ (∀ x ∈ a.2, isPathChar x = true) ∨
    a.1 = "fill".toList ∧ isMaskWhite a.2 = true ∨ a.1 = "fill-rule".toList ∧ (a.2 = "nonzero".toList ∨ a.2 = "evenodd".toList)

/-- An attribute of the subset, and the view box before and behind it. -/
inductive Fits (kind : Kind) (name value : Text) (old new : Option (ViewBox F)) : Prop where
  | viewBox (root : kind = .svg) (named : name = "viewBox".toList) (box : ViewBox F) (parsed : parseViewBox value = .ok box)
      (read : new = some box)
  | xmlns (root : kind = .svg) (named : name = "xmlns".toList) (same : value = svgNamespace) (kept : new = old)
  | fill (named : name = "fill".toList) (white : isMaskWhite value = true) (kept : new = old)
  | data (path : kind = .path) (named : name = "d".toList) (some_ : trimAscii value ≠ [])
      (chars : ∀ x ∈ value, isPathChar x = true) (kept : new = old)
  | rule (path : kind = .path) (named : name = "fill-rule".toList) (known : value = "nonzero".toList ∨ value = "evenodd".toList)
      (kept : new = old)

end

namespace Checker
variable {F α β : Type}

section
variable {c : Checker F}

/-- What a check of an attribute comes to when nothing is said. -/
def Checked (c : Checker F) (c' : Checker F) (kept : Prop) : Prop :=
  c'.Sound ∧ c'.pos = c.pos ∧ (c'.out = [] → c.out = [] ∧ kept)

theorem Checked.said (sound : c.Sound) (code : Code) (place : Nat) (what hint : String) (kept : Prop) :
    Checked c (c.report code place what hint) kept :=
  ⟨report_sound _ _ _ _ sound, report_pos .., fun quiet => (report_said _ _ _ _ sound quiet).elim⟩

theorem Checked.kept {kept : Prop} (sound : c.Sound) (holds : kept) : Checked c c kept := ⟨sound, rfl, fun quiet => ⟨quiet, holds⟩⟩

theorem reference_checked (element : Text) (attr : Attr) (kind : Kind) (sound : c.Sound) :
    Checked c (c.reference element attr kind).1 ((c.reference element attr kind) = (c, false) ∧
      (attr.name = "xmlns".toList → attr.value = svgNamespace)) := by
  unfold reference
  simp only
  split
  · exact .said sound ..
  split
  · split
    · rename_i eq
      exact .kept sound ⟨rfl, fun _ => eq_of_beq eq⟩
    · exact .said sound ..
  rename_i other
  split
  · exact .said sound ..
  · exact .kept sound ⟨rfl, fun eq => (other (beq_iff_eq.mpr eq)).elim⟩

variable [Floats F]

theorem allowed_checked (element : Text) (attr : Attr) (kind : Kind) (sound : c.Sound) :
    Checked c (c.allowed element attr kind) ((attr.name = "xmlns".toList → attr.value = svgNamespace) →
      ∃ box, c.allowed element attr kind = { c with viewBox := box } ∧ Fits kind attr.name attr.value c.viewBox box) := by
  obtain ⟨name, value, place, valuePlace⟩ := attr
  unfold allowed
  split
  case isTrue named =>
    obtain ⟨rfl, rfl⟩ := named
    cases parsed : parseViewBox (F := F) value with
    | ok box => exact ⟨sound, rfl, fun quiet => ⟨quiet, fun _ => ⟨some box, rfl, .viewBox rfl rfl box parsed rfl⟩⟩⟩
    | error why => exact .said sound ..
  split
  case isTrue named =>
    obtain ⟨rfl, rfl⟩ := named
    exact .kept sound fun link => ⟨c.viewBox, rfl, .xmlns rfl rfl (link rfl) rfl⟩
  split
  case isTrue named =>
    split
    · rename_i white
      exact .kept sound fun _ => ⟨c.viewBox, rfl, .fill named white rfl⟩
    · exact .said sound ..
  split
  case isTrue named =>
    obtain ⟨rfl, rfl⟩ := named
    unfold pathData
    split
    · exact .said sound ..
    rename_i some_
    split
    · exact .said sound ..
    · rename_i none_
      refine .kept sound fun _ =>
        ⟨c.viewBox, rfl, .data rfl rfl (fun empty => some_ (List.isEmpty_iff.mpr empty)) (fun x mem => of_not_not fun bad => ?_) rfl⟩
      cases first : byteFind (fun x => !isPathChar x) value with
      | none => exact bad (by simpa using byteFind_eq_none.mp first x mem)
      | some i =>
        cases found : value.find? (fun x => !isPathChar x) with
        | none => exact bad (by simpa using List.find?_eq_none.mp found x mem)
        | some y => exact none_ i y first found
  split
  case isTrue named =>
    obtain ⟨rfl, rfl⟩ := named
    split
    · exact .said sound ..
    · rename_i either
      refine .kept sound fun _ => ⟨c.viewBox, rfl, .rule rfl rfl (of_not_not fun neither => ?_) rfl⟩
      obtain ⟨one, two⟩ := not_or.mp neither
      exact either (Bool.and_eq_true_iff.mpr ⟨bne_iff_ne.mpr one, bne_iff_ne.mpr two⟩)
  exact .said sound ..

theorem checkAttr_checked (element : Text) (attr : Attr) (kind : Kind) (sound : c.Sound) :
    Checked c (checkAttr element kind c attr) (kind ≠ .other → ∃ box, checkAttr element kind c attr = { c with viewBox := box } ∧
      Fits kind attr.name attr.value c.viewBox box) := by
  obtain ⟨sound₁, pos₁, quiet₁⟩ := reference_checked element attr kind sound
  unfold checkAttr
  simp only
  split
  case isTrue dealt =>
    refine ⟨sound₁, pos₁, fun quiet => ?_⟩
    obtain ⟨before, eq, _⟩ := quiet₁ quiet
    refine ⟨before, fun known => ?_⟩
    rw [eq, Bool.false_or] at dealt
    exact (known (eq_of_beq dealt)).elim
  case isFalse =>
    obtain ⟨sound₂, pos₂, quiet₂⟩ := allowed_checked element attr kind sound₁
    refine ⟨sound₂, pos₂.trans pos₁, fun quiet => ?_⟩
    obtain ⟨said, fits⟩ := quiet₂ quiet
    obtain ⟨before, eq, link⟩ := quiet₁ said
    rw [eq] at fits ⊢
    exact ⟨before, fun _ => fits link⟩

theorem attrs_checked (element : Text) (kind : Kind) (attrs : List Attr) (sound : c.Sound) :
    Checked c (attrs.foldl (checkAttr element kind) c) (kind ≠ .other →
      ∃ box, attrs.foldl (checkAttr element kind) c = { c with viewBox := box } ∧
        (∀ a ∈ attrs, ∃ old new : Option (ViewBox F), Fits kind a.name a.value old new) ∧
        ((kind = .svg ∧ ∃ a ∈ attrs, a.name = "viewBox".toList ∧ ∃ found : ViewBox F, parseViewBox a.value = .ok found ∧ box = some found) ∨
          (kind = .svg → ∀ a ∈ attrs, a.name ≠ "viewBox".toList) ∧ box = c.viewBox)) := by
  induction attrs generalizing c with
  | nil => exact .kept sound fun _ => ⟨c.viewBox, rfl, fun _ wrong => (nomatch wrong), .inr ⟨fun _ _ wrong => (nomatch wrong), rfl⟩⟩
  | cons a attrs ih =>
    obtain ⟨sound₁, pos₁, quiet₁⟩ := checkAttr_checked element a kind sound
    obtain ⟨sound₂, pos₂, quiet₂⟩ := ih sound₁
    refine ⟨sound₂, pos₂.trans pos₁, fun quiet => ?_⟩
    obtain ⟨said, later⟩ := quiet₂ quiet
    obtain ⟨before, first⟩ := quiet₁ said
    refine ⟨before, fun known => ?_⟩
    obtain ⟨box₁, same₁, fits⟩ := first known
    obtain ⟨box, eq, all, ends⟩ := later known
    refine ⟨box, ?_, forall_mem_cons.mpr ⟨⟨_, _, fits⟩, all⟩, ?_⟩
    · rw [foldl_cons, eq, same₁]
    rcases ends with ⟨root, b, mem, rest⟩ | ⟨free, left⟩
    · exact .inl ⟨root, b, mem_cons_of_mem _ mem, rest⟩
    rw [same₁] at left
    have other : ∀ {other : Text}, a.name = other → other ≠ "viewBox".toList →
        (kind = .svg → ∀ b ∈ a :: attrs, b.name ≠ "viewBox".toList) := fun named apart root =>
      forall_mem_cons.mpr ⟨named ▸ apart, free root⟩
    cases fits with
    | viewBox root named found parsed read => exact .inl ⟨root, a, mem_cons_self, named, found, parsed, left.trans read⟩
    | xmlns _ named _ kept => exact .inr ⟨other named (by decide), left.trans kept⟩
    | fill named _ kept => exact .inr ⟨other named (by decide), left.trans kept⟩
    | data _ named _ _ kept => exact .inr ⟨other named (by decide), left.trans kept⟩
    | rule _ named _ kept => exact .inr ⟨other named (by decide), left.trans kept⟩

/-- The attributes of a tag, as they are read. -/
abbrev pairs (tag : Open) : List (Text × Text) := tag.attrs.map fun a => (a.name, a.value)

theorem mem_pairs {tag : Open} {a : Text × Text} : a ∈ pairs tag ↔ ∃ attr ∈ tag.attrs, attr.name = a.1 ∧ attr.value = a.2 := by
  unfold pairs
  rw [mem_map]
  constructor
  · rintro ⟨attr, mem, rfl⟩
    exact ⟨attr, mem, rfl, rfl⟩
  · rintro ⟨attr, mem, name, value⟩
    exact ⟨attr, mem, Prod.ext name value⟩

theorem attributes_checked (tag : Open) (kind : Kind) (sound : c.Sound) (once : c.out = [] → (tag.attrs.map Attr.name).Nodup) :
    Checked c (c.attributes tag kind) ((kind = .svg → ∃ box : ViewBox F, RootAttrs (pairs tag) box ∧
        c.attributes tag kind = { c with viewBox := some box }) ∧
      (kind = .path → PathAttrs (pairs tag) ∧ c.attributes tag kind = c)) := by
  obtain ⟨sound₁, pos₁, quiet₁⟩ := attrs_checked tag.name kind tag.attrs sound
  unfold attributes
  simp only
  split
  · rename_i name sample _
    obtain ⟨sound₂, pos₂, quiet₂⟩ := Checked.said sound₁ .e0704 tag.place
      ("<" ++ String.ofList tag.name ++ "> has no " ++ name ++ " attribute") ("write " ++ sample) False
    exact ⟨sound₂, pos₂.trans pos₁, fun quiet => (quiet₂ quiet).2.elim⟩
  · rename_i complete
    refine ⟨sound₁, pos₁, fun quiet => ?_⟩
    obtain ⟨before, checked⟩ := quiet₁ quiet
    have once' : ((pairs tag).map Prod.fst).Nodup := by
      rw [map_map]
      exact once before
    refine ⟨before, ?_, ?_⟩
    · rintro rfl
      obtain ⟨box, eq, all, ends⟩ := checked (by decide)
      have has : ∃ a ∈ tag.attrs, a.name = "viewBox".toList := by
        simpa using complete
      rcases ends with ⟨_, a, mem, named, found, parsed, rfl⟩ | ⟨free, _⟩
      case inr =>
        obtain ⟨a, mem, named⟩ := has
        exact (free rfl a mem named).elim
      refine ⟨found, ⟨once', ⟨a.value, mem_pairs.mpr ⟨a, mem, named, rfl⟩, parsed⟩, fun b inside => ?_⟩, eq⟩
      obtain ⟨attr, known, name, value⟩ := mem_pairs.mp inside
      rw [← name, ← value]
      obtain ⟨old, new, fits⟩ := all attr known
      cases fits with
      | viewBox _ named => exact .inl named
      | xmlns _ named eq => exact .inr (.inl ⟨named, eq⟩)
      | fill named white => exact .inr (.inr ⟨named, white⟩)
      | data path => cases path
      | rule path => cases path
    · rintro rfl
      obtain ⟨box, eq, all, ends⟩ := checked (by decide)
      have has : ∃ a ∈ tag.attrs, a.name = "d".toList := by
        simpa using complete
      obtain ⟨a, mem, named⟩ := has
      refine ⟨⟨once', ⟨a.value, mem_pairs.mpr ⟨a, mem, named, rfl⟩⟩, fun b inside => ?_⟩, eq.trans ?_⟩
      · obtain ⟨attr, known, name, value⟩ := mem_pairs.mp inside
        rw [← name, ← value]
        obtain ⟨old, new, fits⟩ := all attr known
        cases fits with
        | viewBox root => cases root
        | xmlns root => cases root
        | fill named white => exact .inr (.inl ⟨named, white⟩)
        | data _ named some_ chars => exact .inl ⟨named, some_, chars⟩
        | rule _ named known => exact .inr (.inr ⟨named, known⟩)
      · rcases ends with ⟨root, _⟩ | ⟨_, kept⟩
        · cases root
        · rw [kept]

/-- What the checker knows of the tags so far. -/
structure Known (F : Type) where
  stack : List (Text × Kind)
  rootSeen : Bool
  rootDone : Bool
  viewBox : Option (ViewBox F)
  paths : Nat

def known (c : Checker F) : Known F := ⟨c.stack, c.rootSeen, c.rootDone, c.viewBox, c.paths⟩

/-- What an element opens to: the root, or a path of its. -/
inductive Opened (tag : Open) (c c' : Checker F) : Prop where
  | root (first : c.stack = []) (fresh : c.rootDone = false) (named : tag.name = "svg".toList) (box : ViewBox F)
      (attrs : RootAttrs (pairs tag) box)
      (read : c'.known = ⟨if tag.selfClosing then [] else [(tag.name, .svg)], true, tag.selfClosing, some box, c.paths⟩)
  | path (parent : Text × Kind) (outer : List (Text × Kind)) (inside : c.stack = parent :: outer) (childless : parent.2 ≠ .path)
      (named : tag.name = "path".toList) (attrs : PathAttrs (pairs tag))
      (read : c'.known = ⟨if tag.selfClosing then c.stack else (tag.name, .path) :: c.stack, c.rootSeen, c.rootDone, c.viewBox,
        c.paths + 1⟩)

/-- What is said to be an element of the subset. -/
inductive Kinded (tag : Open) (c c' : Checker F) : Kind → Prop where
  | root (first : c.stack = []) (named : tag.name = "svg".toList) (same : c' = { c with rootSeen := true, rootPlace := tag.place }) :
      Kinded tag c c' .svg
  | path (parent : Text × Kind) (outer : List (Text × Kind)) (inside : c.stack = parent :: outer) (childless : parent.2 ≠ .path)
      (named : tag.name = "path".toList) (excess : Nat) (same : c' = { c with paths := c.paths + 1, excessPlace := excess }) :
      Kinded tag c c' .path

omit [Floats F] in
theorem kindOf_runs (tag : Open) (sound : c.Sound) : Runs c (c.kindOf tag) (c.pos.rest.length + 1) fun c' kind =>
    c'.pos = c.pos ∧ Kinded tag c c' kind := by
  unfold kindOf
  cases opened : c.stack with
  | nil =>
    simp only [List.head?_nil, Option.map_none]
    split
    · exact .halted sound ..
    rename_i named
    exact .ok sound (lt_succ_self _) fun quiet =>
      ⟨quiet, rfl, .root opened (of_not_not fun other => named (bne_iff_ne.mpr other)) (by rw [opened])⟩
  | cons parent outer =>
    simp only [List.head?_cons, Option.map_some]
    split
    · exact .said sound (lt_succ_self _) ..
    split
    · rename_i named
      split
      · exact .ok (report_sound _ _ _ _ sound) (by simp) fun quiet => (report_said _ _ _ _ sound quiet).elim
      · rename_i childless
        exact .ok sound (lt_succ_self _) fun quiet =>
          ⟨quiet, rfl, .path parent outer opened (fun path => childless (beq_iff_eq.mpr path)) named _ (by rw [opened])⟩
    · exact .said sound (lt_succ_self _) ..

theorem opening_runs (tag : Open) (sound : c.Sound) (once : c.out = [] → (tag.attrs.map Attr.name).Nodup) :
    Runs c (c.opening tag) (c.pos.rest.length + 1) fun c' _ => c'.pos = c.pos ∧ Opened tag c c' := by
  unfold opening
  split
  · exact .halted sound ..
  rename_i fresh
  refine (kindOf_runs tag sound).andThen fun c₁ kind _ sound₁ left₁ quiet₁ => ?_
  obtain ⟨sound₂, pos₂, quiet₂⟩ := attributes_checked tag kind sound₁ fun silent => once (quiet₁ silent).1
  refine .ok ?_ ?_ fun quiet => ?_
  · split
    · split <;> exact sound₂
    · exact sound₂
  · have left₂ := pos₂ ▸ left₁
    split
    · split <;> exact left₂
    · exact left₂
  have silent : (c₁.attributes tag kind).out = [] := by
    revert quiet
    split
    · split <;> exact id
    · exact id
  obtain ⟨before, root, path⟩ := quiet₂ silent
  obtain ⟨_, pos₁, kinded⟩ := quiet₁ before
  refine ⟨before, ?_, ?_⟩
  · have pos := pos₂.trans pos₁
    split
    · split <;> exact pos
    · exact pos
  · cases kinded with
    | root first named eq =>
      obtain ⟨box, attrs, read⟩ := root rfl
      refine .root first (Bool.eq_false_iff.mpr fresh) named box attrs ?_
      rw [read, eq]
      cases tag.selfClosing <;> simp [known, first, fresh]
    | path parent outer inside childless named excess eq =>
      obtain ⟨attrs, read⟩ := path rfl
      refine .path parent outer inside childless named attrs ?_
      rw [read, eq]
      cases tag.selfClosing <;> simp [known, inside]

end

section
variable [Floats F]

def pathEvents (attrs : List (Text × Text)) : List Event := [.start "path".toList attrs, .stop "path".toList]

/-- How far an asset is read, by the tags so far. -/
inductive Phase : Known F → List Event → Prop where
  | before (box : Option (ViewBox F)) : Phase ⟨[], false, false, box, 0⟩ []
  | inside (attrs : List (Text × Text)) (box : ViewBox F) (children : List (List (Text × Text))) (root : RootAttrs attrs box)
      (paths : ∀ child ∈ children, PathAttrs child) :
      Phase ⟨[("svg".toList, .svg)], true, false, some box, children.length⟩
        (.start "svg".toList attrs :: children.flatMap pathEvents)
  | inPath (attrs : List (Text × Text)) (box : ViewBox F) (children : List (List (Text × Text))) (child : List (Text × Text))
      (root : RootAttrs attrs box) (paths : ∀ child ∈ children, PathAttrs child) (last : PathAttrs child) :
      Phase ⟨[("path".toList, .path), ("svg".toList, .svg)], true, false, some box, children.length + 1⟩
        (.start "svg".toList attrs :: (children.flatMap pathEvents ++ [.start "path".toList child]))
  | after (attrs : List (Text × Text)) (box : ViewBox F) (children : List (List (Text × Text))) (root : RootAttrs attrs box)
      (paths : ∀ child ∈ children, PathAttrs child) :
      Phase ⟨[], true, true, some box, children.length⟩
        (.start "svg".toList attrs :: (children.flatMap pathEvents ++ [.stop "svg".toList]))

variable {es : List Event}

theorem Phase.unrefused {k : Known F} (phase : Phase k es) : k.stack.head?.map Prod.snd ≠ some .other := by
  cases phase <;> simp

variable {c c' : Checker F}

theorem Phase.opened {tag : Open} (phase : Phase c.known es) (opened : Opened tag c c') :
    Phase c'.known (es ++ tag.events) := by
  generalize eq : c.known = k at phase
  have stack : c.stack = k.stack := congrArg Known.stack eq
  have done : c.rootDone = k.rootDone := congrArg Known.rootDone eq
  have paths_ : c.paths = k.paths := congrArg Known.paths eq
  have seen : c.rootSeen = k.rootSeen := congrArg Known.rootSeen eq
  have box_ : c.viewBox = k.viewBox := congrArg Known.viewBox eq
  unfold Open.events
  cases opened with
  | root first fresh named box attrs read =>
    rw [first] at stack
    rw [fresh] at done
    cases phase with
    | inside => cases stack
    | inPath => cases stack
    | after => cases done
    | before =>
      rw [read, named, paths_]
      cases tag.selfClosing with
      | true => exact .after _ box [] attrs fun _ wrong => (nomatch wrong)
      | false => exact .inside _ box [] attrs fun _ wrong => (nomatch wrong)
  | path parent outer inside childless named attrs read =>
    rw [inside] at stack
    cases phase with
    | before => cases stack
    | after => cases stack
    | inPath =>
      cases stack
      exact (childless rfl).elim
    | inside rootAttrs box children root paths =>
      rw [read, named, inside, stack, seen, done, box_, paths_]
      cases tag.selfClosing with
      | true =>
        have next := Phase.inside rootAttrs box (children ++ [pairs tag]) root
          (forall_mem_append.mpr ⟨paths, forall_mem_singleton.mpr attrs⟩)
        rw [flatMap_append, length_append] at next
        simpa [pathEvents, startEvents] using next
      | false => exact .inPath rootAttrs box children _ root paths attrs

theorem Phase.closed {k : Known F} {name : Text} {kind : Kind} {stack : List (Text × Kind)}
    (phase : Phase k es) (top : k.stack = (name, kind) :: stack) :
    Phase { k with stack := stack, rootDone := if stack.isEmpty then true else k.rootDone } (es ++ [.stop name]) := by
  cases phase with
  | before => cases top
  | after => cases top
  | inside attrs box children root paths =>
    cases top
    exact .after attrs box children root paths
  | inPath attrs box children child root paths last =>
    cases top
    have all := forall_mem_append.mpr ⟨paths, forall_mem_singleton.mpr last⟩
    have next := Phase.inside attrs box (children ++ [child]) root all
    rw [flatMap_append, length_append] at next
    simpa [pathEvents] using next

/-- The tag under the cursor, as it is recognised. -/
def tagsAt (c : Checker F) : List Event :=
  if "<!".toList.isPrefixOf c.pos.rest || "<?".toList.isPrefixOf c.pos.rest then []
  else if "</".toList.isPrefixOf c.pos.rest then (c.closeName.map fun closed => Event.stop closed.1).toList
  else match c.openTag with
    | some (_, .ok tag) => tag.events
    | _ => []

/-- The tags of the loop, one after another. -/
def tagsLoop : Nat → Checker F → List Event
  | 0, _ => []
  | fuel + 1, c => match c.between with
      | some (here, .ok true) => tagsAt here ++ match here.markup with
          | some (next, .ok ()) => tagsLoop fuel next
          | _ => []
      | _ => []

theorem markup_runs {rest : Text} (opens : c.pos.rest = '<' :: rest) (sound : c.Sound)
    (phase : c.out = [] → Phase c.known es) : Runs c c.markup c.pos.rest.length fun c' _ => ∃ piece : Piece,
      c.pos.rest = piece.written ++ c'.pos.rest ∧ tagsAt c = piece.events ∧ Phase c'.known (es ++ piece.events) := by
  unfold markup tagsAt
  simp only
  split
  case isTrue isComment =>
    obtain ⟨tail, whole⟩ := isPrefixOf_iff_prefix.mp isComment
    refine (comment_runs whole.symm sound).weaken (Nat.le_refl _) fun before c' _ found => ?_
    obtain ⟨body, plain, written, same⟩ := found
    refine ⟨.comment body plain, written, ?_, ?_⟩
    · rw [← whole]
      rfl
    · rw [same]
      exact (append_nil es).symm ▸ phase before
  split
  · refine ((skipPast_runs (by decide) _ _ (report_sound _ _ _ _ sound)).noisy (report_said _ _ _ _ sound) (Nat.le_of_eq ?_))
    rw [report_pos]
  split
  · refine ((skipPast_runs (by decide) _ _ (report_sound _ _ _ _ sound)).noisy (report_said _ _ _ _ sound) (Nat.le_of_eq ?_))
    rw [report_pos]
  split
  · exact .halted sound ..
  rename_i noComment _ noInstruction noDeclaration
  have bare : ¬ ("<!".toList.isPrefixOf c.pos.rest || "<?".toList.isPrefixOf c.pos.rest) = true := fun either =>
    (Bool.or_eq_true_iff.mp either).elim noDeclaration noInstruction
  rw [if_neg bare]
  split
  case isTrue closes =>
    obtain ⟨tail, whole⟩ := isPrefixOf_iff_prefix.mp closes
    refine (closeTag_runs whole.symm sound).weaken (Nat.le_refl _) fun before c' _ found => ?_
    obtain ⟨name, gap, some_, chars, blank, named, written, kind, stack, top, same⟩ := found
    refine ⟨.stop name gap some_ chars blank, written, ?_, ?_⟩
    · obtain ⟨closed, eq, rfl⟩ := Option.map_eq_some_iff.mp named
      rw [eq]
      rfl
    · rw [same]
      exact (phase before).closed top
  case isFalse =>
    refine (openTag_runs opens sound).andThen fun c₁ tag read sound₁ left₁ quiet₁ => ?_
    refine (opening_runs tag sound₁ fun silent => (quiet₁ silent).2.2.1).weaken left₁ fun silent c' _ found => ?_
    obtain ⟨before, ⟨attrs, blanks, named, blank, written, events⟩, once, same⟩ := quiet₁ silent
    obtain ⟨pos, opened⟩ := found
    refine ⟨.start tag.name attrs blanks tag.selfClosing named blank, ?_, ?_, ?_⟩
    · rw [written, pos]
    · rw [read, events]
    · rw [events]
      exact Phase.opened (c := c₁) (by rw [same]; exact phase before) opened

theorem between_runs (sound : c.Sound) (phase : c.out = [] → Phase c.known es) :
    Runs c c.between (c.pos.rest.length + 1) fun c' more => ∃ s, Blank s ∧ c.pos.rest = s ++ c'.pos.rest ∧
      (if more then ∃ rest, c'.pos.rest = '<' :: rest else c'.pos.rest = []) ∧ c' = { c with pos := c'.pos } := by
  have blank : ∀ s, c.out = [] → Blank s ∨ c.stack.head?.map Prod.snd = some .other → Blank s := fun s quiet either =>
    either.resolve_right (phase quiet).unrefused
  unfold between
  rcases Cursor.upTo_cases '<' c.pos with ⟨_, none_⟩ | ⟨s, rest, whole, _, found⟩
  · rw [none_, Option.bind_some]
    refine (text_runs c.pos.rest c.pos.offset sound).andThen fun c₁ _ _ sound₁ _ quiet₁ =>
      .ok sound₁ (succ_pos _) fun quiet => ?_
    obtain ⟨before, rfl, either⟩ := quiet₁ quiet
    exact ⟨before, c₁.pos.rest, blank _ before either, (append_nil _).symm, rfl, rfl⟩
  · rw [found, Option.bind_some]
    have short : ('<' :: rest).length < c.pos.rest.length + 1 := by
      rw [whole, length_append]
      omega
    refine (text_runs s c.pos.offset sound).andThen fun c₁ _ _ sound₁ _ quiet₁ => .ok sound₁ ?_ fun quiet => ?_
    · exact short
    · obtain ⟨before, rfl, either⟩ := quiet₁ quiet
      exact ⟨before, s, blank _ before either, whole, ⟨rest, rfl⟩, rfl⟩

omit [Floats F] in
theorem between_opens (step : c.between = some (c', .ok true)) : ∃ rest, c'.pos.rest = '<' :: rest := by
  unfold between at step
  rcases Cursor.upTo_cases '<' c.pos with ⟨_, none_⟩ | ⟨s, rest, _, _, found⟩
  · rw [none_, Option.bind_some] at step
    obtain ⟨c₁, _, _, ends⟩ := andThen_ok step
    cases ends
  · rw [found, Option.bind_some] at step
    obtain ⟨c₁, _, _, ends⟩ := andThen_ok step
    cases ends
    exact ⟨rest, rfl⟩

theorem loop_runs (fuel : Nat) (enough : c.pos.rest.length < fuel) (sound : c.Sound)
    (phase : c.out = [] → Phase c.known es) : Runs c (loop fuel c) (c.pos.rest.length + 1) fun c' _ => ∃ pieces : List Piece,
      c.pos.rest = pieces.flatMap Piece.written ∧ tagsLoop fuel c = pieces.flatMap Piece.events ∧
      Phase c'.known (es ++ pieces.flatMap Piece.events) := by
  induction fuel generalizing c es with
  | zero => exact absurd enough (Nat.not_lt_zero _)
  | succ fuel ih =>
    unfold loop tagsLoop
    refine (between_runs sound phase).andThen fun c₁ more step₁ sound₁ left₁ quiet₁ => ?_
    have phase₁ : c₁.out = [] → Phase c₁.known es := fun silent => by
      obtain ⟨before, _, _, _, _, eq⟩ := quiet₁ silent
      rw [eq]
      exact phase before
    rw [step₁]
    cases more with
    | false =>
      refine .ok sound₁ left₁ fun quiet => ⟨quiet, ?_⟩
      obtain ⟨before, s, blank, whole, ends, eq⟩ := quiet₁ quiet
      refine ⟨[.text s blank], ?_, rfl, (append_nil es).symm ▸ phase₁ quiet⟩
      rw [whole, show c₁.pos.rest = [] from ends]
      rfl
    | true =>
      obtain ⟨rest, opens⟩ := between_opens step₁
      refine (markup_runs opens sound₁ phase₁).andThen fun c₂ _ step₂ sound₂ left₂ quiet₂ => ?_
      have phase₂ : c₂.out = [] → Phase c₂.known (es ++ tagsAt c₁) := fun silent => by
        obtain ⟨_, piece, _, events, after⟩ := quiet₂ silent
        rw [events]
        exact after
      refine (ih (by omega) sound₂ phase₂).weaken (by omega) fun silent c' _ found => ?_
      obtain ⟨said, piece, written, events, _⟩ := quiet₂ silent
      obtain ⟨_, s, blank, whole, _, _⟩ := quiet₁ said
      obtain ⟨pieces, tail, tags, ends⟩ := found
      refine ⟨.text s blank :: piece :: pieces, ?_, ?_, ?_⟩
      · rw [whole, written, tail]
        rfl
      · simp only [step₂, tags]
        rw [events]
        rfl
      · rw [append_assoc, events] at ends
        exact ends

def tags (c : Checker F) : List Event :=
  match c.lead with
  | none => []
  | some c => match c.declaration with
    | some (c, .ok ()) => tagsLoop (c.pos.rest.length + 1) c
    | _ => []

end

end Checker

/-- A declaration ends at its first `?>`, and holds neither markup nor an entity. -/
structure IsDeclaration (body : Text) : Prop where
  starts : body.head?.any isAsciiWhitespace = true
  first : ¬ "?>".toList <:+: body
  plain : '&' ∉ body ∧ '<' ∉ body

structure Lead where
  marked : Bool
  gap : Text
  gap_blank : Blank gap
  declaration : Option Text
  declared : ∀ body ∈ declaration, IsDeclaration body

def declarationText : Option Text → Text
  | none => []
  | some body => "<?xml".toList ++ (body ++ "?>".toList)

def Lead.text (l : Lead) : Text := (if l.marked then ['\ufeff'] else []) ++ (l.gap ++ declarationText l.declaration)

/-- An asset as the contract has it: one root, whose only children are its paths. -/
structure Mask {F : Type} [Floats F] (svg : Text) (info : SvgInfo F) where
  lead : Lead
  pieces : List Piece
  root : List (Text × Text)
  paths : List (List (Text × Text))
  written : svg = lead.text ++ pieces.flatMap Piece.written
  tags : pieces.flatMap Piece.events = .start "svg".toList root :: (paths.flatMap Checker.pathEvents ++ [.stop "svg".toList])
  rootAttrs : RootAttrs root info.viewBox
  pathAttrs : ∀ path ∈ paths, PathAttrs path
  counted : paths.length = info.paths
  some_ : 1 ≤ info.paths
  few : info.paths ≤ maxPathsPerAsset
  plain : '\x00' ∉ svg

namespace Checker
variable {F : Type}

section
variable {c : Checker F}

theorem lead_reads (start : c.pos.rest = c.src) : ∃ (c' : Checker F) (marked : Bool) (gap : Text), c.lead = some c' ∧ c' = { c with pos := c'.pos } ∧ Blank gap ∧
    c.src = (if marked then ['\ufeff'] else []) ++ (gap ++ c'.pos.rest) := by
  unfold lead
  split
  case isTrue head =>
    obtain ⟨rest, whole⟩ : ∃ rest, c.src = '\ufeff' :: rest := List.head?_eq_some_iff.mp head
    have cut : c.pos.take 3 = some (['\ufeff'], ⟨c.pos.offset + 3, rest⟩) := Cursor.take_prefix (a := ['\ufeff']) (start.trans whole)
    obtain ⟨gap, tail, rfl, blank, _, eq⟩ := (Text.Cursor.mk (c.pos.offset + 3) rest).takeWhile_cases (p := isWs) fun _ => isWs_low
    rw [cut, Option.map_some, Option.bind_some, eq, Option.map_some]
    exact ⟨_, true, gap, rfl, rfl, blank, whole⟩
  case isFalse =>
    obtain ⟨gap, tail, whole, blank, _, eq⟩ := c.pos.takeWhile_cases (p := isWs) fun _ => isWs_low
    rw [Option.bind_some, eq, Option.map_some]
    exact ⟨_, false, gap, rfl, rfl, blank, start.symm.trans whole⟩

theorem declaration_runs (sound : c.Sound) : Runs c c.declaration (c.pos.rest.length + 1) fun c' _ => ∃ body : Option Text,
    (∀ b ∈ body, IsDeclaration b) ∧ c.pos.rest = declarationText body ++ c'.pos.rest ∧ c' = { c with pos := c'.pos } := by
  have nothing : c.out = [] → c.out = [] ∧ ∃ body : Option Text, (∀ b ∈ body, IsDeclaration b) ∧
      c.pos.rest = declarationText body ++ c.pos.rest ∧ c = { c with pos := c.pos } := fun quiet =>
    ⟨quiet, none, fun _ wrong => (nomatch wrong), rfl, rfl⟩
  unfold declaration
  split
  · exact .ok sound (lt_succ_self _) nothing
  rename_i after opens
  split
  · exact .ok sound (lt_succ_self _) nothing
  rename_i starts
  split
  · exact .halted sound ..
  rename_i body tail found
  have whole := stripPrefix_eq_some.mp opens
  obtain ⟨rfl, first⟩ := splitOnText_eq_some (by decide) found
  split
  · exact .halted sound ..
  rename_i plain
  have cut : c.pos.take (5 + byteLen body + 2) = some
      ("<?xml".toList ++ body ++ "?>".toList, ⟨c.pos.offset + (5 + byteLen body + 2), tail⟩) := by
    have front := Cursor.take_prefix (c := c.pos) (a := "<?xml".toList ++ body ++ "?>".toList) (b := tail) (by rw [whole]; simp)
    rw [byteLen_append, byteLen_append] at front
    exact front
  rw [cut, Option.map_some]
  have declared : IsDeclaration body := by
    refine ⟨?_, ?_, ?_⟩
    · cases body with
      | nil => exact absurd rfl starts
      | cons x body => simpa using starts
    · rintro ⟨a, b, within⟩
      have shorter := first (a ++ "?>".toList) ⟨b ++ "?>".toList ++ tail, by rw [← within]; simp⟩ ⟨a, rfl⟩
      rw [← within] at shorter
      simp only [length_append, show "?>".toList.length = 2 from rfl] at shorter
      omega
    · have free : ∀ x ∈ body, ¬ (x = '&' ∨ x = '<') := by simpa using plain
      exact ⟨fun mem => free _ mem (.inl rfl), fun mem => free _ mem (.inr rfl)⟩
  refine .ok sound ?_ fun quiet => ⟨quiet, some body, fun b mem => ?_, ?_, rfl⟩
  · rw [whole]
    simp only [length_append]
    omega
  · cases mem
    exact declared
  · rw [whole]
    simp [declarationText]

end

section
variable [Floats F]
variable {c : Checker F}

theorem scan_runs (start : c.pos.rest = c.src) (sound : c.Sound) (fresh : c.out = [] → Phase c.known []) :
    Runs c c.scan (c.pos.rest.length + 1) fun c' _ => ∃ (lead : Lead) (pieces : List Piece),
      c.src = lead.text ++ pieces.flatMap Piece.written ∧ c.tags = pieces.flatMap Piece.events ∧
      Phase c'.known (pieces.flatMap Piece.events) ∧ c'.stack = [] ∧ c'.rootSeen = true ∧ '\x00' ∉ c.src := by
  unfold scan tags
  split
  · exact .halted sound ..
  rename_i plain
  obtain ⟨c₁, marked, gap, eq, same, blank, whole⟩ := lead_reads start
  have quiet₀ : c₁.out = [] → c.out = [] := fun silent => by
    rw [same] at silent
    exact silent
  have sound₁ : c₁.Sound := by
    rw [same]
    exact sound
  have long : c₁.pos.rest.length ≤ c.pos.rest.length := by
    rw [start, whole, length_append, length_append]
    omega
  rw [eq, Option.bind_some]
  refine Runs.from (((declaration_runs sound₁).andThen fun c₂ _ step₂ sound₂ left₂ quiet₂ => ?_)) quiet₀
  have phase₂ : c₂.out = [] → Phase c₂.known [] := fun silent => by
    obtain ⟨said, _, _, _, kept⟩ := quiet₂ silent
    rw [kept, same]
    exact fresh (quiet₀ said)
  refine (loop_runs _ (lt_succ_self _) sound₂ phase₂).andThen fun c₃ _ step₃ sound₃ left₃ quiet₃ => ?_
  split
  · exact .halted sound₃ ..
  rename_i closed
  split
  · exact .halted sound₃ ..
  rename_i seen
  refine .ok sound₃ (by omega) fun silent => ?_
  obtain ⟨said, pieces, written, events, phase⟩ := quiet₃ silent
  obtain ⟨_, body, declared, front, _⟩ := quiet₂ said
  refine ⟨silent, ⟨marked, gap, blank, body, declared⟩, pieces, ?_, ?_, phase, closed, by simpa using seen, ?_⟩
  · rw [whole, front, written]
    simp [Lead.text]
  · simp only [step₂, events]
  · exact fun mem => by simpa using byteFind_eq_none.mp plain _ mem

omit [Floats F] in
theorem finish_checked (sound : c.Sound) :
    Checked c c.finish (c.finish = c ∧ 1 ≤ c.paths ∧ c.paths ≤ maxPathsPerAsset) := by
  unfold finish
  split
  · exact .said sound ..
  rename_i few
  split
  · exact .said sound ..
  rename_i some_
  refine ⟨sound, rfl, fun quiet => ⟨quiet, rfl, Nat.pos_of_ne_zero fun none_ => some_ ⟨none_, ?_⟩, Nat.le_of_not_lt few⟩⟩
  rw [quiet]
  rfl

end

end Checker

variable {F : Type} [Floats F]

open Checker in
theorem checkAsset_cases (pointer : String) (svg : Text) :
    (∃ findings, checkAsset (F := F) pointer svg = some (.error findings) ∧ findings ≠ []) ∨
    ∃ info : SvgInfo F, checkAsset pointer svg = some (.ok info) ∧
      ∃ mask : Mask svg info, (Checker.new (F := F) pointer svg).tags = mask.pieces.flatMap Piece.events := by
  unfold checkAsset
  split
  · exact .inl ⟨_, rfl, cons_ne_nil _ _⟩
  obtain ⟨c, r, same, sound, _, quiet⟩ := scan_runs (c := Checker.new (F := F) pointer svg) rfl (fun _ => rfl) fun _ => .before none
  rw [same, Option.map_some]
  have refused : ∀ c : Checker F, c.out ≠ [] → ∃ findings, some c.conclude = some (.error findings) ∧ findings ≠ [] := by
    intro c said
    refine ⟨c.out, ?_, said⟩
    unfold conclude
    rw [if_neg fun empty => said (List.isEmpty_iff.mp empty)]
  cases r with
  | error stopped =>
    cases stopped
    refine .inl (refused c fun silent => ?_)
    obtain ⟨_, _, wrong, _⟩ := quiet silent
    cases wrong
  | ok u =>
    obtain ⟨_, _, bounds⟩ := finish_checked sound
    by_cases silent : c.finish.out = []
    case neg => exact .inl (refused c.finish silent)
    obtain ⟨said, eq, some_, few⟩ := bounds silent
    obtain ⟨_, _, _, lead, pieces, written, events, phase, closed, seen, plain⟩ := quiet said
    generalize known : c.known = k at phase
    generalize all : pieces.flatMap Piece.events = es at phase
    have stack : c.stack = k.stack := congrArg Known.stack known
    have root : c.rootSeen = k.rootSeen := congrArg Known.rootSeen known
    have box_ : c.viewBox = k.viewBox := congrArg Known.viewBox known
    have paths_ : c.paths = k.paths := congrArg Known.paths known
    rw [closed] at stack
    rw [seen] at root
    cases phase with
    | before => cases root
    | inside => cases stack
    | inPath => cases stack
    | after attrs box children rootAttrs paths =>
      refine .inr ⟨⟨box, c.paths⟩, ?_, ⟨lead, pieces, attrs, children, written, all, rootAttrs, paths, paths_.symm, some_, few,
        plain⟩, events⟩
      change some c.finish.conclude = _
      rw [eq]
      unfold conclude
      rw [if_pos (List.isEmpty_iff.mpr said), box_]

/-- A check comes to an end, refuses with a finding, and accepts nothing but masks. -/
theorem accepts_masks_only (pointer : String) (svg : Text) : ∃ r, checkAsset (F := F) pointer svg = some r ∧
    (∀ findings, r = .error findings → findings ≠ []) ∧ ∀ info, r = .ok info → Nonempty (Mask svg info) := by
  rcases checkAsset_cases (F := F) pointer svg with ⟨findings, eq, some_⟩ | ⟨info, eq, mask, _⟩
  · refine ⟨_, eq, ?_, fun _ wrong => (nomatch wrong)⟩
    rintro _ ⟨⟩
    exact some_
  · refine ⟨_, eq, fun _ wrong => (nomatch wrong), ?_⟩
    rintro _ ⟨⟩
    exact ⟨mask⟩

end PlxNative.HudFormat.Svg
