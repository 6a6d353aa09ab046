import MixfixLambda.Proofs.Machine.Needs

/-!
# Lists that are made on demand

The digits of a number are appended to those of its tenth part, so that the first of them is there only when all
shorter lists have been evaluated. To evaluate a list takes shorter ones, which is what the induction is on.
-/
namespace MixfixLambda

theorem toNat_digitChar {digit : Nat} (small : digit < 10) : digit.digitChar.toNat = digit + 48 := by
  revert digit
  decide

theorem decimal_of_lt {n : Nat} (small : n < 10) : decimal n = [(n : Int) + 48] := by
  rw [decimal, Nat.toDigits_of_lt_base small, List.map_singleton, toNat_digitChar small]
  rfl

theorem decimal_of_le {n : Nat} (large : 10 ≤ n) : decimal n = decimal (n / 10) ++ [((n % 10 : Nat) : Int) + 48] := by
  rw [decimal, Nat.toDigits_of_base_le (by decide) large, List.map_append, List.map_singleton,
    toNat_digitChar (Nat.mod_lt _ (by decide))]
  rfl

theorem decimal_ne_nil (n : Nat) : decimal n ≠ [] := by
  by_cases small : n < 10
  · simp [decimal_of_lt small]
  · simp [decimal_of_le (Nat.le_of_not_lt small)]

namespace Code

variable {n : Nat}

theorem fitsInt_small {n : Nat} (small : n < 100) : fitsInt n = true :=
  fitsInt_iff.mpr (by simp [minInt, maxInt]; omega)

/-- A digit is written as a byte. -/
theorem reckons_byte {code : Code} {here : Int} (small : n < 10) (digit : Reckons here code n) :
    Reckons here (.app (.app (.builtin .add) code) (.int 48)) (n + 48) := by
  have fits : fitsInt ((n : Int) + 48) = true := fitsInt_small (n := n + 48) (by omega)
  exact .binary digit (.int 48) rfl (by rw [Builtin.binary, Builtin.checked, if_pos fits])

theorem reckons_others (fits : fitsInt n = true) : Reckons n others ((n / 10 : Nat) : Int) := by
  have quotient : (n : Int).tdiv 10 = ((n / 10 : Nat) : Int) := rfl
  refine .binary .here (.int 10) rfl ?_
  rw [Builtin.binary, if_neg (by decide), Builtin.checked, quotient,
    if_pos (fitsInt_of_le (Nat.div_le_self n 10) fits)]

theorem reckons_last (fits : fitsInt n = true) : Reckons n last (((n % 10 : Nat) : Int) + 48) := by
  have quotient : (n : Int).tdiv 10 = ((n / 10 : Nat) : Int) := rfl
  refine reckons_byte (Nat.mod_lt n (by decide)) (.binary .here (.int 10) rfl ?_)
  rw [Builtin.binary, if_neg (by decide), quotient, if_pos (fitsInt_of_le (Nat.div_le_self n 10) fits)]
  rfl

end Code

namespace State

variable {globals : Array Code} {Q : State → Prop} {scene : Scene} {streams : Streams} {frames : List Wait}
  {code : Code} {env : Env} {thunk bound n : Nat}

/-- Lists that are shorter than that can be evaluated. -/
def ForcesLists (globals : Array Code) (n : Nat) : Prop :=
  ∀ {Q : State → Prop} {scene : Scene} {streams : Streams} {frames : List Wait} {code : Code} {env : Env}
    {thunk : Nat} {values : List Int}, values.length < n → scene.world thunk = some (.list values) →
    scene.Calm values.length →
    (∀ (s : Scene) code' env', scene.Evolves s → ListCell s.world values code' env' →
      Leads globals Q ⟨s.constants, s.heap, streams, frames, code', env'⟩) →
    Forces globals Q ⟨scene.constants, scene.heap, streams, frames, code, env⟩ thunk

/-- An integer is appended to a list. -/
theorem Leads.fold {operation last list self : Nat} {values : List Int} {value : Int} (prints : Prints globals)
    (lists : ForcesLists globals n) (short : values.length < n) (front : scene.world list = some (.list values))
    (behind : scene.world last = some (.single value)) (cons : scene.world operation = some .cons)
    (fold : scene.world self = some (.recursion .fold)) (calm : scene.Calm values.length)
    (leads : ∀ (s : Scene) code' env', scene.Evolves s → ListCell s.world (values ++ [value]) code' env' →
      Leads globals Q ⟨s.constants, s.heap, streams, frames, code', env'⟩) :
    Leads globals Q ⟨scene.constants, scene.heap, streams, .arg operation :: .arg last :: .arg list :: frames, .fold,
      [self]⟩ := by
  let s₁ := scene.push ⟨.foldCons, [list, last, operation, self], .done⟩
  have evolves₁ : scene.Evolves s₁ := scene.evolves_push _
  have cell : s₁.heap[scene.heap.size]? = some ⟨.foldCons, [list, last, operation, self], .done⟩ :=
    Array.getElem?_push_size
  have front₁ : s₁.world list = some (.list values) := front
  refine .bind (.bind (.bind (.delayFn (.share rfl (.lookup rfl (lists short front₁ (evolves₁.calm calm) ?_))))))
  intro s₂ code' env' evolves₂ first
  have evolves := evolves₁.trans evolves₂
  cases first with
  | empty =>
    refine .bind (.bind (.lookup rfl (.single (evolves.known _ _ behind) (evolves.calm calm) ?_)))
    exact fun s₃ code' env' evolves₃ last => leads s₃ code' env' (evolves.trans evolves₃) last
  | @cons rest head env' value' values' first' rest' =>
    have holds : Holds s₂.world s₂.heap (.list (values' ++ [value]))
        ⟨.foldRest, [rest, head, list, last, operation, self], .pending⟩ :=
      .append rest' (evolves.known _ _ behind) (evolves.known _ _ cons) (evolves.known _ _ fold)
    let s₃ := s₂.learn _ _ holds
    have evolves₃ : s₂.Evolves s₃ := s₂.evolves_learn holds (by simp)
    have evolves' := evolves.trans evolves₃
    refine .bind (.bind (.share rfl (.share rfl (.lookup rfl (.value (evolves₂.kept _ _ cell (.inl (by simp))) ?_)))))
    have cons₃ : s₃.world operation = some .cons := evolves'.known _ _ cons
    refine .bind (.bind (.delayApp (.share rfl (.lookup rfl (.cons prints cons₃ (evolves'.calm calm) ?_)))))
    intro s₄ env₄ evolves₄
    refine .bind (.bind (leads s₄ _ _ (evolves'.trans evolves₄) ?_))
    exact .cons (evolves₄.known _ _ (evolves₃.known _ _ first')) (evolves₄.known _ _ (s₂.world_learn holds))

/-- The digits of a number: there is one, or the last one is appended to the others. -/
theorem Leads.digits {number self value : Nat} (prints : Prints globals) (lists : ForcesLists globals n)
    (short : (decimal value).length ≤ n) (fits : fitsInt value = true)
    (means : scene.world number = some (.number value)) (again : scene.world self = some (.recursion .digits))
    (calm : scene.Calm ((decimal value).length - 1))
    (leads : ∀ (s : Scene) code' env', scene.Evolves s → ListCell s.world (decimal value) code' env' →
      Leads globals Q ⟨s.constants, s.heap, streams, frames, code', env'⟩) :
    Leads globals Q ⟨scene.constants, scene.heap, streams, .arg number :: frames, .digits, [self]⟩ := by
  refine .bind (.choose prints means calm (fun less s next branch known => ?_) fun other s next branch known => ?_)
  · have small : value < 10 := by omega
    refine .literal known (Code.reckons_byte small .here) fun s₁ env' evolves cell => ?_
    refine .give (branch.later evolves) cell.settles fun evolves' => leads _ _ _ evolves' ?_
    rw [decimal_of_lt small]
    exact cell
  · have large : 10 ≤ value := by omega
    have longer : (decimal value).length = (decimal (value / 10)).length + 1 := by
      rw [decimal_of_le large, List.length_append, List.length_singleton]
    have last : Holds s.world s.heap (.single (((value % 10 : Nat) : Int) + 48))
        ⟨.literal .last, [number, self], .pending⟩ :=
      .literal known (Code.reckons_last fits)
    let s₁ := s.learn _ _ last
    have evolves₁ : s.Evolves s₁ := s.evolves_learn last (by simp)
    have others : Holds s₁.world s₁.heap (.list (decimal (value / 10)))
        ⟨.app (.var 1) .others, [number, self], .pending⟩ :=
      .digits (known.grows evolves₁.grows) (Code.reckons_others fits) (fitsInt_of_le (Nat.div_le_self _ _) fits)
        (.again rfl (evolves₁.known _ _ (branch.evolves.known _ _ again)))
    let s₂ := s₁.learn _ _ others
    have evolves₂ : s₁.Evolves s₂ := s₁.evolves_learn others (by simp)
    have cons : Holds s₂.world s₂.heap .cons ⟨.global 11, [], .pending⟩ := .name
    let s₃ := s₂.learn _ _ cons
    have evolves₃ : s₂.Evolves s₃ := s₂.evolves_learn cons (by simp)
    have before : s.Evolves s₃ := evolves₁.trans (evolves₂.trans evolves₃)
    refine .delayApp (.delayApp (.unfold prints.append rfl (.bind (.bind ?_))))
    refine .share rfl (.share rfl (.delayGlobal ?_))
    refine .named s₃ prints .fold fun s₄ self' evolves₄ folds => ?_
    have after : s₂.Evolves s₄ := evolves₃.trans evolves₄
    have front : s₄.world s₁.heap.size = some (.list (decimal (value / 10))) :=
      after.known _ _ (s₁.world_learn others)
    have behind : s₄.world s.heap.size = some (.single (((value % 10 : Nat) : Int) + 48)) :=
      (evolves₂.trans after).known _ _ (s.world_learn last)
    have operation : s₄.world s₂.heap.size = some .cons := evolves₄.known _ _ (s₂.world_learn cons)
    have calm₄ : s₄.Calm (decimal (value / 10)).length :=
      (branch.evolves.trans (before.trans evolves₄)).calm (calm.mono (by omega))
    refine .fold prints lists (by omega) front behind operation folds calm₄ fun s₅ code' env' evolves₅ cell => ?_
    refine .give (branch.later (before.trans (evolves₄.trans evolves₅))) cell.settles fun evolves' =>
      leads _ _ _ evolves' ?_
    rw [decimal_of_le large]
    exact cell

/-- How the digits of a number are asked for. -/
theorem Leads.digitsOf {function : Code} {number : Nat} (prints : Prints globals) (calm : scene.Calm bound)
    (calls : CallsDigits scene.world env function)
    (leads : ∀ (s : Scene) self, scene.Evolves s → s.world self = some (.recursion .digits) →
      Leads globals Q ⟨s.constants, s.heap, streams, frames, .digits, [self]⟩) :
    Leads globals Q ⟨scene.constants, scene.heap, streams, frames, function, number :: env⟩ := by
  cases calls with
  | name => exact .named _ prints .digits leads
  | @again self own means =>
    have bound' : (number :: env)[1]? = some self := by
      rw [List.getElem?_cons_succ, ← List.head?_eq_getElem?, own]
    exact .again bound' means calm leads

/-- A list is evaluated if all shorter lists can be. -/
theorem Forces.list {values : List Int} (prints : Prints globals) (lists : ForcesLists globals values.length)
    (means : scene.world thunk = some (.list values)) (calm : scene.Calm values.length)
    (leads : ∀ (s : Scene) code' env', scene.Evolves s → ListCell s.world values code' env' →
      Leads globals Q ⟨s.constants, s.heap, streams, frames, code', env'⟩) :
    Forces globals Q ⟨scene.constants, scene.heap, streams, frames, code, env⟩ thunk := by
  obtain ⟨slot, found, holds⟩ := scene.holds _ _ means
  cases holds with
  | running =>
    obtain ⟨values', same, longer⟩ := calm _ _ _ means found rfl
    cases same
    exact absurd longer (Nat.lt_irrefl _)
  | cell cell => exact .value found (leads scene _ _ (.refl scene) cell)
  | @append values value rest head list last operation self front behind cons fold =>
    have waits : scene.heap.Waiting thunk := ⟨_, found, rfl⟩
    have size : (values ++ [value]).length = values.length + 1 := by simp
    have calm' : (scene.mark thunk waits).Calm values.length :=
      (calm.mono (by omega)).mark means (by omega)
    have fold₀ : (scene.mark thunk waits).world self = some (.recursion .fold) := fold
    refine .evaluate found (.share rfl (.share rfl (.share rfl (.again rfl fold₀ calm' ?_))))
    intro s₁ self' evolves₁ fold'
    refine .fold prints lists (by omega) (evolves₁.known _ _ front) (evolves₁.known _ _ behind)
      (evolves₁.known _ _ cons) fold' (evolves₁.calm calm') fun s₂ code' env' evolves₂ cell => ?_
    refine .refill (evolves₁.trans evolves₂) means cell.settles (.cell cell) fun s₃ evolves₃ there => ?_
    exact leads s₃ _ _ evolves₃ (evolves₃.holds means there).cell_of_done
  | @digits here value left right function number env' operand reckons fits calls =>
    have waits : scene.heap.Waiting thunk := ⟨_, found, rfl⟩
    have some : 0 < (decimal value).length := List.length_pos_iff.mpr (decimal_ne_nil value)
    have calm' : (scene.mark thunk waits).Calm ((decimal value).length - 1) :=
      (calm.mono (by omega)).mark means (by omega)
    have holds : Holds (scene.mark thunk waits).world (scene.mark thunk waits).heap (.number value)
        ⟨.app left right, number :: env', .pending⟩ :=
      .reckons (operand.grows (scene.grows_mark waits)) reckons
    let s₁ := (scene.mark thunk waits).learn _ _ holds
    have evolves₁ : (scene.mark thunk waits).Evolves s₁ := (scene.mark thunk waits).evolves_learn holds (by simp)
    have calls₁ := calls.grows evolves₁.grows
    refine .evaluate found (.delayApp (.digitsOf prints (evolves₁.calm calm') calls₁ ?_))
    intro s₂ self evolves₂ again
    have number₂ := evolves₂.known _ _ ((scene.mark thunk waits).world_learn holds)
    refine .digits prints lists (Nat.le_refl _) fits number₂ again ((evolves₁.trans evolves₂).calm calm') ?_
    intro s₃ code' env₃ evolves₃ cell
    have evolves := evolves₁.trans (evolves₂.trans evolves₃)
    refine .refill evolves means cell.settles (.cell cell) fun s₄ evolves₄ there => ?_
    exact leads s₄ _ _ evolves₄ (evolves₄.holds means there).cell_of_done

theorem forcesLists (prints : Prints globals) (n : Nat) : ForcesLists globals n := by
  induction n with
  | zero => exact fun short => absurd short (Nat.not_lt_zero _)
  | succ n ih =>
    intro Q scene streams frames code env thunk values short means calm leads
    refine .list prints (fun shorter => ih (by omega)) means calm leads

end State

end MixfixLambda
