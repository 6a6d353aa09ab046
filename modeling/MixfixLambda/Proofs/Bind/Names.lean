import Mathlib.Order.Bounds.Basic
import MixfixLambda.Proofs.Bind.Located
import MixfixLambda.Proofs.Bind.Warnings

/-!
# Names of globals

A name is checked before a global of that name is added: it must not be the name of a builtin, and the newest
global of the name, if there is one, must be of the prelude and the new one of the module. The check reads one entry
of a table in which newer globals have replaced older ones, so what it guarantees of all globals is an invariant of
the binder. Every definition keeps it, whether it adds one global or those of a data type.
-/
namespace MixfixLambda

namespace Tree

/-- The name that a left-hand side defines. -/
def headTags (lhs : Tree) : List Tag :=
  (lhs.definitionHead?.map Prod.fst).toList

/-- The constructor of an alternative of a type. -/
def constructorTag? (alternative : Tree) : Option Tag :=
  match alternative.spine.1 with
  | .name tag => some tag
  | _ => none

/-- The names that a type with these alternatives defines: its own, its constructors, and their `case_` functions. -/
def typeTags (lhs : Tree) (alternatives : List Tree) : List Tag :=
  let constructors := alternatives.filterMap constructorTag?
  lhs.headTags ++ constructors ++ constructors.map Binder.caseTag

/-- The names that an item at top level defines. -/
def definedTags : Tree → List Tag
  | .define _ lhs (.data alternatives _) => typeTags lhs alternatives
  | .define _ lhs _ => lhs.headTags
  | _ => []

variable {text : String} {origin : Origin} {t : Tree}

theorem headTags_origin (cites : t.Each (Cites text origin)) : ∀ tag ∈ t.headTags, tag.origin = origin := by
  intro tag member
  obtain ⟨⟨tag, parameters⟩, defines, rfl⟩ := Option.map_eq_some_iff.1 (Option.mem_toList.1 member)
  obtain ⟨x, part, called⟩ := (part_definitionHead defines).1
  exact origin_calledBy (cites x part) called

theorem constructorTag?_origin (cites : t.Each (Cites text origin)) {tag : Tag} (found : t.constructorTag? = some tag) :
    tag.origin = origin := by
  have root := (each_spine cites).1 _ .root
  unfold constructorTag? at found
  split at found
  · next head =>
    cases found
    rw [head] at root
    exact root.1
  · cases found

/-- A `case_` function is of the origin of its constructor. -/
theorem typeTags_origin {alternatives : List Tree} (left : t.Each (Cites text origin))
    (each : ∀ alternative ∈ alternatives, alternative.Each (Cites text origin)) :
    ∀ tag ∈ t.typeTags alternatives, tag.origin = origin := by
  have constructors : ∀ tag ∈ alternatives.filterMap constructorTag?, tag.origin = origin := by
    intro tag member
    obtain ⟨alternative, listed, found⟩ := List.mem_filterMap.1 member
    exact constructorTag?_origin (each alternative listed) found
  intro tag member
  rcases List.mem_append.1 member with member | member
  · rcases List.mem_append.1 member with member | member
    · exact headTags_origin left tag member
    · exact constructors tag member
  · obtain ⟨constructor, listed, rfl⟩ := List.mem_map.1 member
    exact constructors constructor listed

theorem definedTags_origin (cites : t.Each (Cites text origin)) : ∀ tag ∈ t.definedTags, tag.origin = origin := by
  unfold definedTags
  split
  · next sign lhs alternatives span =>
    have right : (Tree.data alternatives span).Each (Cites text origin) := cites.child (by simp [children])
    exact typeTags_origin (cites.child (by simp [children])) fun alternative listed => right.child listed
  · exact headTags_origin (cites.child (by simp [children]))
  · simp

theorem definedTags_topItems_origin (cites : t.Each (Cites text origin)) :
    ∀ tag ∈ (Binder.topItems t).flatMap definedTags, tag.origin = origin := by
  have items : ∀ item ∈ Binder.topItems t, item.Each (Cites text origin) := by
    unfold Binder.topItems
    split
    · exact fun item listed => cites.child listed
    · exact fun item listed => List.mem_singleton.1 listed ▸ cites
  intro tag member
  obtain ⟨item, listed, defined⟩ := List.mem_flatMap.1 member
  exact definedTags_origin (items item listed) tag defined

end Tree

/-- The warnings about names of the prelude that are taken. -/
def shadowedOf (warnings : List BindWarning) : List BindWarning :=
  warnings.filter (·.kind == .shadowedPrelude)

/-- The warning about a global that takes a name of the prelude. -/
def Global.shadowWarning (g : Global) : BindWarning :=
  ⟨.shadowedPrelude, g.tag.text, g.tag.span⟩

/-- Of two globals of one name the earlier one is of the prelude, and the later one of a module. -/
def Shadows (g h : Global) : Prop :=
  g.tag.text = h.tag.text → g.tag.origin = .prelude ∧ h.tag.origin = .module

namespace Global

/-- A global of a module has the name of a global of the prelude. -/
def takes (globals : List Global) (g : Global) : Bool :=
  g.tag.origin == .module && globals.any fun h => h.tag.origin == .prelude && h.tag.text == g.tag.text

variable {globals others : List Global} {g : Global}

theorem takes_iff : g.takes globals = true ↔
    g.tag.origin = .module ∧ ∃ h ∈ globals, h.tag.origin = .prelude ∧ h.tag.text = g.tag.text := by
  simp [takes]

theorem takes_append : g.takes (globals ++ others) = (g.takes globals || g.takes others) := by
  rw [takes, List.any_append, Bool.and_or_distrib_left]
  rfl

/-- A module takes no names of its own. -/
theorem takes_modules (defined : ∀ h ∈ globals, h.tag.origin = .module) : g.takes globals = false := by
  rw [← Bool.not_eq_true, takes_iff]
  rintro ⟨-, h, member, old, -⟩
  cases old.symm.trans (defined h member)

theorem takes_of_shadows (shadows : ∀ h ∈ globals, Shadows h g) :
    g.takes globals = globals.any (·.tag.text == g.tag.text) := by
  rw [Bool.eq_iff_iff, takes_iff, List.any_eq_true]
  constructor
  · rintro ⟨-, h, member, -, same⟩
    exact ⟨h, member, beq_iff_eq.2 same⟩
  · rintro ⟨h, member, same⟩
    have same := beq_iff_eq.1 same
    obtain ⟨old, own⟩ := shadows h member same
    exact ⟨own, h, member, old, same⟩

/-- What comes behind a global takes its name, and not the other way round. -/
theorem takes_later {h : Global} (shadows : Shadows h g) : h.takes [g] = false := by
  rw [← Bool.not_eq_true, takes_iff]
  rintro ⟨own, other, last, -, same⟩
  cases List.mem_singleton.1 last
  cases own.symm.trans (shadows same.symm).1

theorem takes_itself : g.takes [g] = false := by
  rw [← Bool.not_eq_true, takes_iff]
  rintro ⟨own, other, last, old, -⟩
  cases List.mem_singleton.1 last
  cases own.symm.trans old

end Global

/-- The globals of a module whose names the prelude also defines, in order. -/
def shadowing (globals : List Global) : List Global :=
  globals.filter (·.takes globals)

/-- One more global is among them if its name was taken before. -/
theorem shadowing_append {globals : List Global} {g : Global} (shadows : ∀ h ∈ globals, Shadows h g) :
    shadowing (globals ++ [g]) =
      shadowing globals ++ if globals.any (·.tag.text == g.tag.text) then [g] else [] := by
  have before : ∀ h ∈ globals, h.takes (globals ++ [g]) = h.takes globals := fun h member => by
    rw [Global.takes_append, Global.takes_later (shadows h member), Bool.or_false]
  have itself : g.takes (globals ++ [g]) = globals.any (·.tag.text == g.tag.text) := by
    rw [Global.takes_append, Global.takes_itself, Bool.or_false, Global.takes_of_shadows shadows]
  rw [shadowing, List.filter_append, List.filter_congr before, List.filter_singleton, itself, Bool.cond_eq_ite]
  rfl

/-- What a module defines on top of the prelude shadows what has the same name in the prelude. -/
theorem shadowing_of_origins {old own : List Global} (provided : ∀ g ∈ old, g.tag.origin = .prelude)
    (defined : ∀ g ∈ own, g.tag.origin = .module) :
    shadowing (old ++ own) = own.filter fun g => old.any (·.tag.text == g.tag.text) := by
  have before : ∀ g ∈ old, ¬g.takes (old ++ own) = true := fun g member takes => by
    cases (provided g member).symm.trans (Global.takes_iff.1 takes).1
  have behind : ∀ g ∈ own, g.takes (old ++ own) = old.any (·.tag.text == g.tag.text) := fun g member => by
    rw [Global.takes_append, Global.takes_modules defined, Bool.or_false,
      Global.takes_of_shadows fun h first _ => ⟨provided h first, defined g member⟩]
  rw [shadowing, List.filter_append, List.filter_eq_nil_iff.2 before, List.nil_append, List.filter_congr behind]

/-- The places of the globals of a name. -/
def placesOf (globals : Array Global) (name : String) : Set Nat :=
  {index | ∃ g, globals[index]? = some g ∧ g.tag.text = name}

section

variable {globals : Array Global} {g : Global} {name : String}

theorem placesOf_push_other (other : g.tag.text ≠ name) : placesOf (globals.push g) name = placesOf globals name := by
  ext index
  refine exists_congr fun h => ?_
  rw [Array.getElem?_push]
  split
  · next last =>
    rw [last, Array.getElem?_size]
    refine ⟨?_, fun absent => nomatch absent.1⟩
    rintro ⟨⟨⟩, named⟩
    exact absurd named other
  · rfl

theorem placesOf_push_same (named : g.tag.text = name) : IsGreatest (placesOf (globals.push g) name) globals.size := by
  refine ⟨⟨g, Array.getElem?_push_size, named⟩, fun index found => ?_⟩
  obtain ⟨h, found, -⟩ := found
  have inside := (Array.getElem?_eq_some_iff.1 found).1
  rw [Array.size_push] at inside
  omega

end

open BindM

namespace Binder

/-- How the globals of a binder are named, what its table knows of them, and which warnings there have been. -/
structure WellNamed (b : Binder) : Prop where
  /-- No global is named like a builtin. -/
  user : ∀ g ∈ b.globals, Builtin.ofName? g.tag.text = none
  /-- No name is defined twice, except once by the prelude and then once by a module. -/
  twice : b.globals.toList.Pairwise Shadows
  /-- A name leads to its newest global. -/
  newest : ∀ name index, b.indexOf? name = some index ↔ IsGreatest (placesOf b.globals name) index
  /-- No other names are known. -/
  known : ∀ name, (b.indexOf? name).isSome = true ↔ ∃ g ∈ b.globals, g.tag.text = name
  /-- One warning for each name of the prelude that is taken. -/
  warned : shadowedOf b.warnings = ((shadowing b.globals.toList).map Global.shadowWarning).reverse

theorem empty_wellNamed : empty.WellNamed where
  user g member := nomatch member
  twice := .nil
  newest name index := by
    refine ⟨fun found => (nomatch found), fun newest => ?_⟩
    obtain ⟨g, found, -⟩ := newest.1
    cases found
  known name := by simp [empty, indexOf?]
  warned := rfl

variable {b b' : Binder} {tag : Tag}

theorem WellNamed.shadows (named : b.WellNamed) {earlier later : Nat} {g h : Global} (before : earlier < later)
    (first : b.globals[earlier]? = some g) (second : b.globals[later]? = some h) : Shadows g h := by
  obtain ⟨inside, rfl⟩ := Array.getElem?_eq_some_iff.1 first
  obtain ⟨inside', rfl⟩ := Array.getElem?_eq_some_iff.1 second
  exact List.pairwise_iff_getElem.1 named.twice earlier later inside inside' before

/-- What the check of one entry of the table says about all globals. -/
theorem WellNamed.checked (named : b.WellNamed) (success : checkGlobalName tag b = (.ok (), b')) (term : Term) :
    Builtin.ofName? tag.text = none ∧ (∀ h ∈ b.globals, Shadows h ⟨tag, term⟩) ∧
      b' = { b with warnings :=
        (if b.globals.toList.any (·.tag.text == tag.text) then [Global.shadowWarning ⟨tag, term⟩] else []) ++
          b.warnings } := by
  obtain ⟨user, passed⟩ := checkGlobalName_cases success
  refine ⟨user, ?_⟩
  cases taken : b.indexOf? tag.text with
  | none =>
    have free : ∀ h ∈ b.globals, h.tag.text ≠ tag.text := by
      intro h member same
      have known := (named.known tag.text).2 ⟨h, member, same⟩
      rw [taken] at known
      cases known
    have none : b.globals.toList.any (·.tag.text == tag.text) = false := by
      rw [List.any_eq_false]
      exact fun h member => by simpa using free h (Array.mem_toList_iff.1 member)
    rw [taken] at passed
    rcases passed with ⟨-, rfl⟩ | ⟨other, found, -⟩
    · rw [none]
      exact ⟨fun h member same => absurd same (free h member), rfl⟩
    · cases found
  | some index =>
    obtain ⟨⟨newest, here, same⟩, last⟩ := (named.newest tag.text index).1 taken
    rw [taken, Option.bind_some, here] at passed
    rcases passed with ⟨absent, -⟩ | ⟨_, ⟨⟩, ⟨old, own⟩, rfl⟩
    · cases absent
    have some : b.globals.toList.any (·.tag.text == tag.text) = true :=
      List.any_eq_true.2 ⟨newest, Array.mem_toList_iff.2 (Array.mem_of_getElem? here), beq_iff_eq.2 same⟩
    rw [some]
    refine ⟨fun h member equal => ⟨?_, own⟩, rfl⟩
    obtain ⟨place, found⟩ := Array.mem_iff_getElem?.1 member
    rcases Nat.lt_or_eq_of_le (last ⟨h, found, equal⟩) with before | rfl
    · -- The newest global would be of a module if there were an older one of its name.
      cases old.symm.trans (named.shadows before found here (equal.trans same.symm)).2
    · rw [found] at here
      cases here
      exact old

/-- One more global, entered in the table, with a warning if it takes a name. -/
theorem WellNamed.push (named : b.WellNamed) {g : Global} (user : Builtin.ofName? g.tag.text = none)
    (admits : ∀ h ∈ b.globals, Shadows h g) (globals : b'.globals = b.globals.push g)
    (entered : ∀ name, b'.indexOf? name = if g.tag.text = name then some b.globals.size else b.indexOf? name)
    (warned : shadowedOf b'.warnings =
      (if b.globals.toList.any (·.tag.text == g.tag.text) then [g.shadowWarning] else []) ++ shadowedOf b.warnings) :
    b'.WellNamed where
  user := by
    rw [globals]
    intro h member
    rcases Array.mem_push.1 member with old | rfl
    · exact named.user h old
    · exact user
  twice := by
    rw [globals, Array.toList_push]
    refine List.pairwise_append.2 ⟨named.twice, List.pairwise_singleton _ _, fun h member new last => ?_⟩
    rw [List.mem_singleton.1 last]
    exact admits h (Array.mem_toList_iff.1 member)
  newest name index := by
    rw [globals, entered]
    split
    · next same =>
      have newest : IsGreatest (placesOf (b.globals.push g) name) b.globals.size := placesOf_push_same same
      exact Option.some_inj.trans ⟨fun here => here ▸ newest, newest.unique⟩
    · next other =>
      rw [placesOf_push_other other]
      exact named.newest name index
  known name := by
    rw [globals, entered]
    split
    · next same => exact ⟨fun _ => ⟨g, Array.mem_push_self, same⟩, fun _ => rfl⟩
    · next other =>
      refine (named.known name).trans ⟨?_, ?_⟩
      · rintro ⟨h, member, called⟩
        exact ⟨h, Array.mem_push_of_mem _ member, called⟩
      · rintro ⟨h, member, called⟩
        rcases Array.mem_push.1 member with old | rfl
        · exact ⟨h, old, called⟩
        · exact absurd called other
  warned := by
    rw [globals, Array.toList_push, shadowing_append fun h member => admits h (Array.mem_toList_iff.1 member), warned,
      named.warned, List.map_append, List.reverse_append]
    split <;> rfl

theorem indexOf?_addGlobal {term : Term} (added : addGlobal tag term b = (.ok (), b')) (name : String) :
    b'.indexOf? name = if tag.text = name then some b.globals.size else b.indexOf? name := by
  cases added
  change (List.find? _ ((tag.text, b.globals.size) :: b.names)).map _ = _
  rw [List.find?_cons]
  split
  · next same => rw [if_pos (beq_iff_eq.1 same)]; rfl
  · next other => rw [if_neg (beq_eq_false_iff_ne.1 other)]; rfl

theorem shadowedOf_unused (ds : List LocalDefinition) : shadowedOf (LocalDefinition.warnings ds).reverse = [] := by
  refine List.filter_eq_nil_iff.2 fun w member => ?_
  obtain ⟨d, -, rfl⟩ := List.mem_map.1 (List.mem_reverse.1 member)
  exact Bool.false_ne_true

/-- A global that is added under a name that has been checked, with the work on its term in between. -/
theorem WellNamed.add (named : b.WellNamed) {middle : Binder} (checked : checkGlobalName tag b = (.ok (), middle))
    {term : Term} {used : Nat → Bool} {ds : List LocalDefinition}
    (added : addGlobal tag term (middle.noted used ds) = (.ok (), b')) :
    b'.WellNamed ∧ b'.globals.toList = b.globals.toList ++ [⟨tag, term⟩] := by
  obtain ⟨user, admits, rfl⟩ := named.checked checked term
  have entered := indexOf?_addGlobal added
  cases added
  refine ⟨named.push user admits rfl entered ?_, Array.toList_push⟩
  change shadowedOf ((LocalDefinition.warnings ds).reverse ++ (_ ++ b.warnings)) = _
  rw [shadowedOf, List.filter_append, List.filter_append, ← shadowedOf, shadowedOf_unused]
  split <;> rfl

/-- Work on terms defines no globals. -/
theorem WellNamed.noted (named : b.WellNamed) (used : Nat → Bool) (ds : List LocalDefinition) :
    (b.noted used ds).WellNamed where
  user := named.user
  twice := named.twice
  newest := named.newest
  known := named.known
  warned := by
    change shadowedOf (_ ++ b.warnings) = _
    rw [shadowedOf, List.filter_append, ← shadowedOf, ← shadowedOf, shadowedOf_unused, List.nil_append, named.warned]
    rfl

end Binder

namespace BindM

variable {α β : Type} {work : BindM α} {post : α → List Tag → Prop} {after : β → List Tag → Prop}

/-- Work at top level that keeps the globals well named. The names of those that it adds are told by `post`, together
with the result. -/
def Defines (work : BindM α) (post : α → List Tag → Prop) : Prop :=
  ∀ b a b', b.WellNamed → work b = (.ok a, b') →
    ∃ gs : List Global, post a (gs.map Global.tag) ∧ b'.globals.toList = b.globals.toList ++ gs ∧ b'.WellNamed

theorem Defines.pure {a : α} (holds : post a []) : (Pure.pure a : BindM α).Defines post := by
  rintro b _ _ named ⟨⟩
  exact ⟨[], holds, (List.append_nil _).symm, named⟩

theorem refuse_defines (cause : BindCause) (span : Span) : (refuse cause span : BindM α).Defines post := by
  rintro b _ _ _ ⟨⟩

theorem Defines.mono {weaker : α → List Tag → Prop} (strong : work.Defines post)
    (implies : ∀ a tags, post a tags → weaker a tags) : work.Defines weaker := by
  intro b a b' named success
  obtain ⟨gs, holds, added⟩ := strong b a b' named success
  exact ⟨gs, implies _ _ holds, added⟩

theorem Defines.bind {next : α → BindM β} (first : work.Defines post)
    (second : ∀ a tags, post a tags → (next a).Defines fun result more => after result (tags ++ more)) :
    (work >>= next).Defines after := by
  intro b result b' named success
  obtain ⟨a, middle, outcome, success⟩ := bind_success success
  obtain ⟨gs, holds, grown, named⟩ := first b a middle named outcome
  obtain ⟨hs, holds, grown', named⟩ := second a _ holds middle result b' named success
  rw [← List.map_append] at holds
  exact ⟨gs ++ hs, holds, by rw [grown', grown, List.append_assoc], named⟩

theorem Still.defines {found : α → Prop} (still : work.Still found) :
    work.Defines fun a tags => found a ∧ tags = [] := by
  intro b a b' named success
  obtain ⟨rfl, holds⟩ := still b a b' success
  exact ⟨[], ⟨holds, rfl⟩, (List.append_nil _).symm, named⟩

theorem Tracks.defines {noted : α → (Nat → Bool) → List LocalDefinition → Prop} (tracks : work.Tracks noted) :
    work.Defines fun _ tags => tags = [] := by
  intro b a b' named success
  obtain ⟨used, ds, -, rfl⟩ := tracks b a b' success
  exact ⟨[], rfl, (List.append_nil _).symm, named.noted used ds⟩

theorem mapM_defines {work : α → BindM β} {defined : α → List Tag}
    (each : ∀ a, (work a).Defines fun _ tags => tags = defined a) (items : List α) :
    (items.mapM work).Defines fun _ tags => tags = items.flatMap defined := by
  induction items with
  | nil => exact .pure rfl
  | cons a rest ih =>
    rw [List.mapM_cons]
    refine (each a).bind ?_
    rintro _ _ rfl
    refine ih.bind ?_
    rintro _ _ rfl
    exact .pure (by rw [List.append_nil, List.flatMap_cons])

/-- A loop whose body never leaves it. -/
theorem forIn_defines {body : α → PUnit → BindM (ForInStep PUnit)} (defined : α → List Tag)
    (each : ∀ a r, (body a r).Defines fun turn tags => turn = .yield PUnit.unit ∧ tags = defined a)
    (items : List α) : (forIn items PUnit.unit body).Defines fun _ tags => tags = items.flatMap defined := by
  induction items with
  | nil => exact .pure rfl
  | cons a rest ih =>
    rw [List.forIn_cons]
    refine (each a PUnit.unit).bind ?_
    rintro _ _ ⟨rfl, rfl⟩
    exact ih.mono fun _ tags same => by rw [same, List.flatMap_cons]

theorem mapM_still {γ : Type} {work : α → BindM β} {found : β → γ} {sought : α → Option γ}
    (each : ∀ a, (work a).Still fun result => sought a = some (found result)) (items : List α) :
    (items.mapM work).Still fun results => results.map found = items.filterMap sought := by
  induction items with
  | nil =>
    rintro b _ _ ⟨⟩
    exact ⟨rfl, rfl⟩
  | cons a rest ih =>
    intro b results b' success
    rw [List.mapM_cons] at success
    obtain ⟨first, middle, outcome, success⟩ := bind_success success
    obtain ⟨others, last, outcome', returned⟩ := bind_success success
    cases returned
    obtain ⟨rfl, here⟩ := each a _ _ _ outcome
    obtain ⟨rfl, behind⟩ := ih _ _ _ outcome'
    exact ⟨rfl, (congrArg (found first :: ·) behind).trans (List.filterMap_cons_some here).symm⟩

end BindM

namespace Binder

/-- A definition is checked before its term is built, and added afterwards. -/
theorem checked_defines {work : BindM Term} {noted : Term → (Nat → Bool) → List LocalDefinition → Prop}
    (tag : Tag) (tracks : work.Tracks noted) : BindM.Defines (do
      checkGlobalName tag
      addGlobal tag (← work)) fun _ tags => tags = [tag] := by
  intro b a b' named success
  obtain ⟨⟨⟩, middle, checked, success⟩ := bind_success success
  obtain ⟨term, last, built, added⟩ := bind_success success
  obtain ⟨used, ds, -, rfl⟩ := tracks _ _ _ built
  obtain ⟨named, grown⟩ := named.add checked added
  exact ⟨[⟨tag, term⟩], rfl, grown, named⟩

theorem addChecked_defines (tag : Tag) (term : Term) : (addChecked tag term).Defines fun _ tags => tags = [tag] := by
  have made : (Pure.pure term : BindM Term).Tracks fun _ _ _ => True := .pure trivial
  exact checked_defines tag made

theorem defineGlobal_defines (lhs body : Tree) :
    (defineGlobal lhs body).Defines fun _ tags => tags = lhs.headTags := by
  unfold defineGlobal
  split
  · exact refuse_defines _ _
  · next tag parameters defines =>
    split
    · exact refuse_defines _ _
    · refine (checked_defines tag (bindDefinition_builds tag parameters _ body.bind_builds)).mono ?_
      rintro _ _ rfl
      rw [Tree.headTags, defines]
      rfl

theorem constructorOf_still (alternative : Tree) :
    (constructorOf alternative).Still fun constructor => alternative.constructorTag? = some constructor.1 := by
  unfold constructorOf Tree.constructorTag?
  split
  · next tag fields head =>
    split
    · exact refuse_still _ _ _
    · rintro b _ _ ⟨⟩
      exact ⟨rfl, by rw [head]⟩
  · exact refuse_still _ _ _

/-- A type with `n` constructors defines `2 n + 1` names, each one checked against those before. -/
theorem defineType_defines (lhs : Tree) (alternatives : List Tree) :
    (defineType lhs alternatives).Defines fun _ tags => tags = lhs.typeTags alternatives := by
  unfold defineType
  split
  · exact refuse_defines _ _
  next tag parameters defines =>
  refine (mapM_still constructorOf_still alternatives).defines.bind ?_
  rintro constructors _ ⟨listed, rfl⟩
  refine (addChecked_defines tag _).bind ?_
  rintro _ _ rfl
  refine (forIn_defines (fun item => [item.1.1]) (fun item _ => ?_) _).bind ?_
  · refine (addChecked_defines _ _).bind ?_
    rintro _ _ rfl
    exact .pure ⟨rfl, rfl⟩
  rintro _ _ rfl
  refine (forIn_defines (fun item => [caseTag item.1.1]) (fun item _ => ?_) _).bind ?_
  · refine (addChecked_defines _ _).bind ?_
    rintro _ _ rfl
    exact .pure ⟨rfl, rfl⟩
  rintro _ _ rfl
  refine .pure ?_
  have inOrder (f : Tag → Tag) : constructors.zipIdx.flatMap (fun item => [f item.1.1]) =
      (alternatives.filterMap Tree.constructorTag?).map f :=
    calc constructors.zipIdx.flatMap (fun item => [f item.1.1])
      _ = ((constructors.zipIdx.map Prod.fst).map Prod.fst).map f := by
        rw [← List.map_eq_flatMap, List.map_map, List.map_map]
        rfl
      _ = (alternatives.filterMap Tree.constructorTag?).map f := by rw [List.zipIdx_map_fst, listed]
  rw [Tree.typeTags, Tree.headTags, defines, inOrder caseTag, inOrder fun tag => tag]
  simp

theorem bindItem_defines (item : Tree) : (bindItem item).Defines fun _ tags => tags = item.definedTags := by
  cases item with
  | declaration d => exact .pure rfl
  | define sign lhs body =>
    unfold bindItem
    dsimp only
    split
    · refine (defineType_defines lhs _).bind ?_
      rintro _ _ rfl
      exact .pure (List.append_nil _)
    · next other =>
      refine (defineGlobal_defines lhs body).bind ?_
      rintro _ _ rfl
      refine .pure ?_
      rw [List.append_nil, Tree.definedTags]
      exact other
  | _ =>
    refine (Tree.bind_builds _).defines.bind ?_
    rintro _ _ rfl
    exact .pure rfl

theorem bindItems_defines (program : Tree) :
    (bindItems program).Defines fun _ tags => tags = (topItems program).flatMap Tree.definedTags := by
  refine (mapM_defines bindItem_defines (topItems program)).bind ?_
  rintro _ _ rfl
  exact .pure (List.append_nil _)

theorem finish_defines (expression : Option Term) (span : Span) :
    (finish expression span).Defines fun _ tags => tags = [] := by
  cases expression with
  | some term => exact .pure rfl
  | none =>
    intro b entry b' named success
    obtain ⟨index, definition, input, -, -, read, -⟩ := finish_main success
    exact (resolve_builds _).defines b input b' named read

theorem ofSource_wellNamed {text : String} {origin : Origin} {b : Binder}
    (bound : Binder.ofSource (parse text origin) = .ok b) :
    b.WellNamed ∧ ∀ g ∈ b.globals, g.tag.origin = origin := by
  obtain ⟨t, expression, parsed, items⟩ := Binder.ofSource_success bound
  obtain ⟨gs, defined, grown, named⟩ := bindItems_defines t _ _ b empty_wellNamed items
  refine ⟨named, fun g member => ?_⟩
  have listed : g.tag ∈ gs.map Global.tag := by
    refine List.mem_map_of_mem ?_
    rwa [← Array.mem_toList_iff, grown] at member
  rw [defined] at listed
  exact Tree.definedTags_topItems_origin (parse_cites parsed) _ listed

end Binder

/-- How the globals of a module are named that `after` has bound on top of the prelude's binder. The module itself
defines `own`. -/
structure Module.WellNamed (m : Module) (t : Tree) (prelude after : Binder) (own : List Global)
    (warnings : List BindWarning) : Prop where
  globals : m.globals = after.globals
  split : m.globals.toList = prelude.globals.toList ++ own
  provided : ∀ g ∈ prelude.globals, g.tag.origin = .prelude
  origin : ∀ g ∈ own, g.tag.origin = .module
  /-- Its own name for each plain definition, and for each data type those of its constructors and dispatchers too. -/
  defined : own.map Global.tag = (Binder.topItems t).flatMap Tree.definedTags
  named : after.WellNamed
  warned : shadowedOf warnings =
    (own.filter fun g => prelude.globals.toList.any (·.tag.text == g.tag.text)).map Global.shadowWarning

theorem bindOn_wellNamed {b : Binder} (named : b.WellNamed) (provided : ∀ g ∈ b.globals, g.tag.origin = .prelude)
    {text : String} {m : Module} (bound : (bindOn (.ok b) text).result = .ok m) :
    ∃ t after own, parse text .module = .ok t ∧
      (Binder.bindItems t >>= (Binder.finish · (Span.point text.utf8ByteSize))) b = (.ok m.entry, after) ∧
      m.WellNamed t b after own (bindOn (.ok b) text).warnings := by
  obtain ⟨t, expression, middle, after, parsed, items, finished, globals, warnings⟩ := bindOn_success bound
  obtain ⟨own, defined, grown, named⟩ := Binder.bindItems_defines t b _ middle named items
  obtain ⟨more, none, grown', named⟩ := Binder.finish_defines _ _ middle _ after named finished
  rw [List.map_eq_nil_iff.1 none, List.append_nil, grown] at grown'
  have origin : ∀ g ∈ own, g.tag.origin = .module := fun g member =>
    Tree.definedTags_topItems_origin (parse_cites parsed) _ (defined ▸ List.mem_map_of_mem member)
  refine ⟨t, after, own, parsed, ?_, globals, globals ▸ grown', provided, origin, defined, named, ?_⟩
  · rw [BindM.bind_apply, items]
    exact finished
  · have warned := congrArg List.reverse named.warned
    rw [grown', shadowing_of_origins (fun g member => provided g (Array.mem_toList_iff.1 member)) origin,
      List.reverse_reverse, shadowedOf, ← List.filter_reverse, ← warnings] at warned
    exact warned

/-- No global is named like a builtin, and no two alike, but for names that the prelude defines and the module defines
again. The binder's table leads from each name to its newest global and knows no others. Of the names that the module
defines, in any form, those that the prelude also defines are warned about, one by one and in order. -/
theorem bindModule_names {text : String} {m : Module} (bound : (bindModule text).result = .ok m) :
    ∃ b t after own, Prelude.binder = .ok b ∧ parse text .module = .ok t ∧
      (Binder.bindItems t >>= (Binder.finish · (Span.point text.utf8ByteSize))) b = (.ok m.entry, after) ∧
      m.WellNamed t b after own (bindModule text).warnings := by
  obtain ⟨b, prelude, bound⟩ := bindModule_success bound
  have own : Binder.ofSource (parse Prelude.text .prelude) = .ok b := prelude
  obtain ⟨named, provided⟩ := Binder.ofSource_wellNamed own
  obtain ⟨t, after, own, parsed, ran, names⟩ := bindOn_wellNamed named provided bound
  rw [bindModule, prelude]
  exact ⟨b, t, after, own, rfl, parsed, ran, names⟩

/-- A module that turns the booleans around. -/
def turnedSource : String :=
  "Bool = \x7bfalse, true\x7d\nif c then a else b = c b a\nid 1"

/-- Whether a source binds, and the names of the prelude that it takes are the given ones. -/
def Bound.takesOf (b : Bound) (names : List String) : Bool :=
  b.result.toOption.isSome && (shadowedOf b.warnings).map BindWarning.name == names

theorem bindOn_turned : (bindOn (Binder.ofSource (parseChars Prelude.chars .prelude)) turnedSource).takesOf
    ["false", "true", "if_then_else"] = true := by
  rw [Prelude.chars_eq]
  decide +kernel

/-- The constructors and the operator of that module shadow those of the prelude. -/
theorem bindModule_names_turned : ∃ m b t after own, (bindModule turnedSource).result = .ok m ∧
    m.WellNamed t b after own (bindModule turnedSource).warnings ∧
    (own.filter fun g => b.globals.toList.any (·.tag.text == g.tag.text)).map (·.tag.text) =
      ["false", "true", "if_then_else"] := by
  have evaluated := bindOn_turned
  rw [← bindModule_eq, Bound.takesOf, Bool.and_eq_true, beq_iff_eq] at evaluated
  obtain ⟨m, bound⟩ := exists_ok evaluated.1
  obtain ⟨b, t, after, own, -, -, -, names⟩ := bindModule_names bound
  refine ⟨m, b, t, after, own, bound, names, ?_⟩
  rw [← evaluated.2, names.warned, List.map_map]
  rfl

end MixfixLambda
