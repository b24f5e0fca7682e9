import Mathlib.Data.List.Forall2

namespace Secd.Results

/-! # Computations that can fail

Code generation and linking run in `Except`. A sequence of steps succeeds when each of its steps
does, and a traversal of a list succeeds when it does so at every element; a failed traversal
reports the failure of one element. These are the only facts about `Except` that later modules use.
-/

variable {ε α β γ δ : Type}

@[simp] theorem bind_eq_ok {first : Except ε α} {next : α → Except ε β} {result : β} :
    first >>= next = .ok result ↔ ∃ value, first = .ok value ∧ next value = .ok result := by
  cases first <;> simp [bind, Except.bind]

@[simp] theorem pure_eq_ok {value result : α} :
    (pure value : Except ε α) = .ok result ↔ value = result := by
  simp [pure, Except.pure]

@[simp] theorem ok_bind (value : α) (next : α → Except ε β) :
    (Except.ok value >>= next) = next value := rfl

@[simp] theorem error_bind (error : ε) (next : α → Except ε β) :
    (Except.error error >>= next) = .error error := rfl

theorem bind_eq_error {first : Except ε α} {next : α → Except ε β} {error : ε} :
    first >>= next = .error error ↔
      first = .error error ∨ ∃ value, first = .ok value ∧ next value = .error error := by
  cases first <;> simp [bind, Except.bind]

/-- Where it does not matter for the second step what the first one gives, both have to succeed. -/
theorem exists_bind_eq_ok_iff {first : Except ε α} {next : α → Except ε β} {holds : Prop}
    (each : ∀ value, (∃ result, next value = .ok result) ↔ holds) :
    (∃ result, first >>= next = .ok result) ↔ (∃ value, first = .ok value) ∧ holds := by
  cases first with
  | error error => simp
  | ok value => simpa using each value

theorem exists_bind_pure_eq_ok_iff {first : Except ε α} {f : α → β} :
    (∃ result, (first >>= fun value => pure (f value)) = .ok result) ↔
      ∃ value, first = .ok value := by
  cases first <;> simp

theorem mapM_eq_ok {f : α → Except ε β} {inputs : List α} {outputs : List β} :
    inputs.mapM f = .ok outputs ↔
      List.Forall₂ (fun input output => f input = .ok output) inputs outputs := by
  induction inputs generalizing outputs with
  | nil => rw [List.mapM_nil, pure_eq_ok, List.forall₂_nil_left_iff, eq_comm]
  | cons input inputs ih =>
    simp only [List.mapM_cons, bind_eq_ok, pure_eq_ok, List.forall₂_cons_left_iff, ih]
    constructor
    · rintro ⟨head, headOk, tail, tailOk, rfl⟩
      exact ⟨head, tail, headOk, tailOk, rfl⟩
    · rintro ⟨head, tail, headOk, tailOk, rfl⟩
      exact ⟨head, headOk, tail, tailOk, rfl⟩

/-- A traversal that fails does so at some element, all before it having succeeded. -/
theorem exists_of_mapM_eq_error {f : α → Except ε β} {inputs : List α} {error : ε}
    (failed : inputs.mapM f = .error error) : ∃ input ∈ inputs, f input = .error error := by
  induction inputs with
  | nil => simp [pure, Except.pure] at failed
  | cons input inputs ih =>
    rw [List.mapM_cons, bind_eq_error] at failed
    rcases failed with headFailed | ⟨head, -, restFailed⟩
    · exact ⟨input, List.mem_cons_self, headFailed⟩
    · rcases bind_eq_error.mp restFailed with tailFailed | ⟨tail, -, impossible⟩
      · obtain ⟨bad, member, badFailed⟩ := ih tailFailed
        exact ⟨bad, List.mem_cons_of_mem _ member, badFailed⟩
      · cases impossible

/-- A traversal succeeds when every element does. -/
theorem exists_mapM_eq_ok {f : α → Except ε β} {inputs : List α}
    (succeeds : ∀ input ∈ inputs, ∃ output, f input = .ok output) :
    ∃ outputs, inputs.mapM f = .ok outputs := by
  cases traversed : inputs.mapM f with
  | ok outputs => exact ⟨outputs, rfl⟩
  | error error =>
    obtain ⟨input, member, failed⟩ := exists_of_mapM_eq_error traversed
    obtain ⟨output, succeeded⟩ := succeeds input member
    rw [succeeded] at failed
    cases failed

/-- A computation whose result passes a check has one. -/
theorem exists_ok_of_any (computed : Except ε α) (holds : α → Bool)
    (passes : computed.toOption.any holds) : ∃ value, computed = .ok value ∧ holds value := by
  cases computed with
  | error error => cases passes
  | ok value => exact ⟨value, rfl, passes⟩

theorem exists_of_mem_right {R : α → β → Prop} {inputs : List α} {outputs : List β}
    (related : List.Forall₂ R inputs outputs) {output : β} (member : output ∈ outputs) :
    ∃ input ∈ inputs, R input output := by
  induction related with
  | nil => cases member
  | cons head _ ih =>
    rcases List.mem_cons.mp member with rfl | inTail
    · exact ⟨_, List.mem_cons_self, head⟩
    · obtain ⟨input, isInput, holds⟩ := ih inTail
      exact ⟨input, List.mem_cons_of_mem _ isInput, holds⟩

theorem exists_of_mem_left {R : α → β → Prop} {inputs : List α} {outputs : List β}
    (related : List.Forall₂ R inputs outputs) {input : α} (member : input ∈ inputs) :
    ∃ output ∈ outputs, R input output :=
  exists_of_mem_right related.flip member

theorem exists_getElem?_of_forall₂ {R : α → β → Prop} {inputs : List α} {outputs : List β}
    (related : List.Forall₂ R inputs outputs) : ∀ {index : Nat} {input : α},
      inputs[index]? = some input → ∃ output, outputs[index]? = some output ∧ R input output := by
  induction related with
  | nil => simp
  | cons head _ ih =>
    intro index input isInput
    cases index with
    | zero =>
      cases isInput
      exact ⟨_, rfl, head⟩
    | succ index => exact ih isInput

theorem forall₂_trans {R : α → β → Prop} {S : β → γ → Prop} {T : α → γ → Prop}
    (compose : ∀ first second third, R first second → S second third → T first third)
    {inputs : List α} {middle : List β} {outputs : List γ} (before : List.Forall₂ R inputs middle)
    (after : List.Forall₂ S middle outputs) : List.Forall₂ T inputs outputs := by
  induction before generalizing outputs with
  | nil =>
    cases after
    exact .nil
  | cons head _ ih =>
    cases after with
    | cons afterHead afterTail => exact .cons (compose _ _ _ head afterHead) (ih afterTail)

/-- What leads over something in between at each element does so on the whole list. -/
theorem exists_between_of_forall₂ {R : α → β → Prop} {S : β → γ → Prop} {inputs : List α}
    {outputs : List γ}
    (related : List.Forall₂ (fun input output => ∃ middle, R input middle ∧ S middle output) inputs
      outputs) : ∃ middles, List.Forall₂ R inputs middles ∧ List.Forall₂ S middles outputs := by
  induction related with
  | nil => exact ⟨[], .nil, .nil⟩
  | cons head _ ih =>
    obtain ⟨middle, before, after⟩ := head
    obtain ⟨middles, allBefore, allAfter⟩ := ih
    exact ⟨middle :: middles, .cons before allBefore, .cons after allAfter⟩

theorem forall₂_imp_of_mem {R S : α → β → Prop} {inputs : List α} {outputs : List β}
    (related : List.Forall₂ R inputs outputs)
    (stronger : ∀ input ∈ inputs, ∀ output, R input output → S input output) :
    List.Forall₂ S inputs outputs := by
  induction related with
  | nil => exact .nil
  | cons head _ ih =>
    exact .cons (stronger _ List.mem_cons_self _ head)
      (ih fun input member => stronger input (List.mem_cons_of_mem _ member))

/-- Bounds for each pair of a correspondence give a bound for all of them. -/
theorem exists_bound_of_forall₂ {R : Nat → α → β → Prop}
    (mono : ∀ {bound larger : Nat} {input : α} {output : β}, bound ≤ larger →
      R bound input output → R larger input output) {inputs : List α} {outputs : List β}
    (related : List.Forall₂ (fun input output => ∃ bound, R bound input output) inputs outputs) :
    ∃ bound, List.Forall₂ (R bound) inputs outputs := by
  induction related with
  | nil => exact ⟨0, .nil⟩
  | cons head _ ih =>
    obtain ⟨headBound, ofHead⟩ := head
    obtain ⟨restBound, ofRest⟩ := ih
    exact ⟨max headBound restBound, .cons (mono (by omega) ofHead)
      (ofRest.imp fun _ _ => mono (by omega))⟩

theorem map_eq_map_of_forall₂ {R : α → β → Prop} {f : α → γ} {g : β → γ} {inputs : List α}
    {outputs : List β} (related : List.Forall₂ R inputs outputs)
    (same : ∀ input output, R input output → g output = f input) :
    outputs.map g = inputs.map f := by
  induction related with
  | nil => rfl
  | cons head _ ih => rw [List.map_cons, List.map_cons, same _ _ head, ih]

theorem forall₂_of_map_eq {f : α → γ} {g : β → γ} {inputs : List α} {outputs : List β}
    (same : inputs.map f = outputs.map g) :
    List.Forall₂ (fun input output => f input = g output) inputs outputs := by
  rw [← List.forall₂_map_left_iff (R := fun image output => image = g output), same,
    List.forall₂_map_left_iff, List.forall₂_same]
  exact fun _ _ => rfl

theorem forall₂_singleton {R : α → β → Prop} {input : α} {outputs : List β}
    (related : List.Forall₂ R [input] outputs) : ∃ output, R input output ∧ outputs = [output] := by
  cases related with
  | cons head tail =>
    cases tail
    exact ⟨_, head, rfl⟩

theorem forall₂_append {R : α → β → Prop} {first second : List α} {outputs : List β}
    (related : List.Forall₂ R (first ++ second) outputs) :
    ∃ before after, outputs = before ++ after ∧ List.Forall₂ R first before ∧
      List.Forall₂ R second after := by
  induction first generalizing outputs with
  | nil => exact ⟨[], outputs, rfl, .nil, related⟩
  | cons input rest ih =>
    cases related with
    | cons head tail =>
      obtain ⟨before, after, rfl, ofRest, ofSecond⟩ := ih tail
      exact ⟨_ :: before, after, rfl, .cons head ofRest, ofSecond⟩

/-- The same keys in front of what corresponds to each other. -/
theorem forall₂_zip {R : α → β → Prop} (keys : List γ) {inputs : List α} {outputs : List β}
    (related : List.Forall₂ R inputs outputs) :
    List.Forall₂ (fun first second => first.1 = second.1 ∧ R first.2 second.2) (keys.zip inputs)
      (keys.zip outputs) := by
  induction related generalizing keys with
  | nil => simp
  | cons head _ ih =>
    cases keys with
    | nil => exact .nil
    | cons key keys => exact .cons ⟨rfl, head⟩ (ih keys)

/-- What corresponds to a concatenation is a concatenation of what corresponds to its parts. -/
theorem forall₂_flatMap {R : β → γ → Prop} {f : α → List β} {inputs : List α} {outputs : List γ}
    (related : List.Forall₂ R (inputs.flatMap f) outputs) :
    ∃ segments, outputs = segments.flatten ∧
      List.Forall₂ (fun input segment => List.Forall₂ R (f input) segment) inputs segments := by
  induction inputs generalizing outputs with
  | nil =>
    cases related
    exact ⟨[], rfl, .nil⟩
  | cons input rest ih =>
    obtain ⟨segment, others, rfl, ofInput, ofRest⟩ := forall₂_append related
    obtain ⟨segments, rfl, parts⟩ := ih ofRest
    exact ⟨segment :: segments, rfl, .cons ofInput parts⟩

theorem mapM_eq_map {f : α → Except ε β} {g : α → β} {inputs : List α}
    (succeeds : ∀ input ∈ inputs, f input = .ok (g input)) :
    inputs.mapM f = .ok (inputs.map g) := by
  rw [mapM_eq_ok, List.forall₂_map_right_iff, List.forall₂_same]
  exact succeeds

theorem mapM_congr {m : Type → Type} [Monad m] [LawfulMonad m] {f g : α → m β} {inputs : List α}
    (agree : ∀ input ∈ inputs, f input = g input) : inputs.mapM f = inputs.mapM g := by
  induction inputs with
  | nil => rfl
  | cons input inputs ih =>
    rw [List.mapM_cons, List.mapM_cons, agree input List.mem_cons_self,
      ih fun other member => agree other (List.mem_cons_of_mem _ member)]

/-- Folds over corresponding elements that take the same step there are the same. -/
theorem foldlM_eq_foldlM {step : β → α → Except ε β} {other : β → γ → Except ε β} {inputs : List α}
    {others : List γ}
    (same : List.Forall₂ (fun input item => ∀ state, step state input = other state item) inputs
      others) (state : β) : inputs.foldlM step state = others.foldlM other state := by
  induction same generalizing state with
  | nil => rfl
  | cons head _ ih =>
    rw [List.foldlM_cons, List.foldlM_cons, head]
    congr 1
    funext next
    exact ih next

theorem foldlM_congr {step other : β → α → Except ε β} {inputs : List α}
    (agree : ∀ input ∈ inputs, ∀ state, step state input = other state input) (state : β) :
    inputs.foldlM step state = inputs.foldlM other state :=
  foldlM_eq_foldlM (List.forall₂_same.mpr agree) state

/-- Traversals of corresponding elements that give the same there are the same. -/
theorem mapM_eq_mapM {f : α → Except ε γ} {g : β → Except ε γ} {inputs : List α} {others : List β}
    (same : List.Forall₂ (fun input other => f input = g other) inputs others) :
    inputs.mapM f = others.mapM g := by
  induction same with
  | nil => rfl
  | cons head _ ih => rw [List.mapM_cons, List.mapM_cons, head, ih]

/-- Concatenating what two traversals give is traversing the concatenation. -/
theorem mapM_flatten {f : α → Except ε β} (groups : List (List α)) :
    (do return (← groups.mapM (List.mapM f)).flatten) = groups.flatten.mapM f := by
  induction groups with
  | nil => rfl
  | cons group groups ih =>
    rw [List.flatten_cons, List.mapM_append, ← ih]
    simp [List.mapM_cons]

/-- Traversing to lists of one element each and concatenating them. -/
theorem mapM_singletons (f : α → Except ε β) (inputs : List α) :
    (do return (← inputs.mapM fun input => do return [← f input]).flatten) = inputs.mapM f := by
  induction inputs with
  | nil => rfl
  | cons input inputs ih =>
    rw [List.mapM_cons, List.mapM_cons, ← ih]
    simp

/-! ## What a computation can report -/

/-- Whatever the computation reports is of this kind. -/
def Reports (kind : ε → Prop) (computed : Except ε α) : Prop :=
  ∀ error, computed = .error error → kind error

namespace Reports

variable {kind : ε → Prop}

theorem ok (value : α) : Reports kind (.ok value : Except ε α) := by
  intro error failed
  cases failed

theorem error {fault : ε} (isKind : kind fault) : Reports kind (.error fault : Except ε α) := by
  intro other failed
  cases failed
  exact isKind

theorem mono {larger : ε → Prop} {computed : Except ε α} (reports : Reports kind computed)
    (weaker : ∀ error, kind error → larger error) : Reports larger computed :=
  fun error failed => weaker error (reports error failed)

theorem bind {first : Except ε α} {next : α → Except ε β} (ofFirst : Reports kind first)
    (ofNext : ∀ value, Reports kind (next value)) : Reports kind (first >>= next) := by
  intro error failed
  rcases bind_eq_error.mp failed with firstFailed | ⟨value, -, nextFailed⟩
  · exact ofFirst error firstFailed
  · exact ofNext value error nextFailed

theorem mapM {step : α → Except ε β} (each : ∀ input, Reports kind (step input))
    (inputs : List α) : Reports kind (inputs.mapM step) := by
  intro error failed
  obtain ⟨input, -, inputFailed⟩ := exists_of_mapM_eq_error failed
  exact each input error inputFailed

end Reports

/-! ## Images of results -/

@[simp] theorem toOption_bind (first : Except ε α) (next : α → Except ε β) :
    (first >>= next).toOption = first.toOption.bind fun value => (next value).toOption := by
  cases first <;> rfl

theorem exceptMap_bind (f : β → γ) (first : Except ε α) (next : α → Except ε β) :
    (first >>= next).map f = first >>= fun value => (next value).map f := by
  cases first <;> rfl

theorem bind_exceptMap (f : α → β) (first : Except ε α) (next : β → Except ε γ) :
    first.map f >>= next = first >>= fun value => next (f value) := by
  cases first <;> rfl

/-- Computations with the same image fail alike or have results with the same image. -/
theorem cases_of_exceptMap_eq {f : α → γ} {g : β → γ} {first : Except ε α} {second : Except ε β}
    (same : first.map f = second.map g) :
    (∃ error, first = .error error ∧ second = .error error) ∨
      ∃ value other, first = .ok value ∧ second = .ok other ∧ f value = g other := by
  cases first with
  | error error =>
    cases second with
    | error other =>
      cases same
      exact .inl ⟨error, rfl, rfl⟩
    | ok other => cases same
  | ok value =>
    cases second with
    | error other => cases same
    | ok other => exact .inr ⟨value, other, rfl, rfl, Except.ok.inj same⟩

/-- A step that commutes with taking images at every element does so on the whole list. -/
theorem mapM_map_eq {f : α → Except ε β} {g : γ → Except ε δ} {h : α → γ} {k : β → δ}
    (each : ∀ input, g (h input) = (f input).map k) (inputs : List α) :
    (inputs.map h).mapM g = (inputs.mapM f).map (List.map k) := by
  induction inputs with
  | nil => rfl
  | cons input rest ih =>
    rw [List.map_cons, List.mapM_cons, List.mapM_cons, each, ih]
    simp only [exceptMap_bind, bind_exceptMap]
    rfl

theorem mapM_exceptMap {f : α → Except ε β} {g : α → Except ε γ} {h : β → γ}
    (each : ∀ input, g input = (f input).map h) (inputs : List α) :
    inputs.mapM g = (inputs.mapM f).map (List.map h) := by
  simpa using mapM_map_eq (h := id) each inputs

/-! ## Two computations side by side -/

/-- Both computations fail, or both succeed and their results are related. -/
inductive Agree (R : α → β → Prop) : Except ε α → Except ε β → Prop where
  | ok {first : α} {second : β} (related : R first second) : Agree R (.ok first) (.ok second)
  | error (first second : ε) : Agree R (.error first) (.error second)

namespace Agree

variable {R : α → β → Prop} {first : Except ε α} {second : Except ε β}

theorem refl {R : α → α → Prop} (related : ∀ value, R value value) (computed : Except ε α) :
    Agree R computed computed := by
  cases computed with
  | ok value => exact .ok (related value)
  | error error => exact .error error error

theorem bind {S : γ → δ → Prop} {next : α → Except ε γ} {otherNext : β → Except ε δ}
    (agree : Agree R first second)
    (each : ∀ value other, R value other → Agree S (next value) (otherNext other)) :
    Agree S (first >>= next) (second >>= otherNext) := by
  cases agree with
  | ok related => exact each _ _ related
  | error error other => exact .error error other

/-- What both begin with is of no account. -/
theorem bind_same {S : γ → δ → Prop} (computed : Except ε α) {next : α → Except ε γ}
    {otherNext : α → Except ε δ} (each : ∀ value, Agree S (next value) (otherNext value)) :
    Agree S (computed >>= next) (computed >>= otherNext) := by
  cases computed with
  | ok value => exact each value
  | error error => exact .error error error

theorem imp {S : α → β → Prop} (agree : Agree R first second)
    (weaker : ∀ value other, first = .ok value → second = .ok other → R value other →
      S value other) : Agree S first second := by
  cases agree with
  | ok related => exact .ok (weaker _ _ rfl rfl related)
  | error error other => exact .error error other

/-- Going on with what both have computed. -/
theorem bind_of_ok {S : γ → δ → Prop} {next : α → Except ε γ}
    {otherNext : β → Except ε δ} (agree : Agree R first second)
    (each : ∀ value other, first = .ok value → second = .ok other → R value other →
      Agree S (next value) (otherNext other)) :
    Agree S (first >>= next) (second >>= otherNext) :=
  (agree.imp fun _ _ isFirst isSecond related => And.intro isFirst (And.intro isSecond related)).bind
    fun value other ⟨isFirst, isSecond, related⟩ => each value other isFirst isSecond related

theorem exists_iff (agree : Agree R first second) :
    (∃ value, first = .ok value) ↔ ∃ other, second = .ok other := by
  cases agree <;> simp

/-- Computations of which one succeeds exactly if the other does. -/
theorem of_exists_iff (iff : (∃ value, first = .ok value) ↔ ∃ other, second = .ok other) :
    Agree (fun value other => first = .ok value ∧ second = .ok other) first second := by
  cases first with
  | ok value =>
    obtain ⟨other, rfl⟩ := iff.mp ⟨value, rfl⟩
    exact .ok ⟨rfl, rfl⟩
  | error error =>
    cases second with
    | ok other => simp at iff
    | error otherError => exact .error error otherError

theorem of_ok {value : α} {other : β} (agree : Agree R first second) (isFirst : first = .ok value)
    (isSecond : second = .ok other) : R value other := by
  subst isFirst isSecond
  cases agree with
  | ok related => exact related

/-- Traversals that agree at corresponding elements agree. -/
theorem mapM {κ : Type} {f : δ → Except ε α} {g : κ → Except ε β} {inputs : List δ}
    {others : List κ} (each : List.Forall₂ (fun input other => Agree R (f input) (g other)) inputs
      others) : Agree (List.Forall₂ R) (inputs.mapM f) (others.mapM g) := by
  induction each with
  | nil => exact .ok .nil
  | cons head _ ih =>
    rw [List.mapM_cons, List.mapM_cons]
    exact head.bind fun _ _ related => ih.bind fun _ _ rest => .ok (.cons related rest)

/-- Steps that agree on related states agree on a whole list. -/
theorem foldlM {item : Type} {step : α → item → Except ε α} {otherStep : β → item → Except ε β}
    {items : List item}
    (each : ∀ item ∈ items, ∀ value other, R value other →
      Agree R (step value item) (otherStep other item)) :
    ∀ {value : α} {other : β}, R value other →
      Agree R (items.foldlM step value) (items.foldlM otherStep other) := by
  induction items with
  | nil => exact fun related => .ok related
  | cons item rest ih =>
    intro value other related
    rw [List.foldlM_cons, List.foldlM_cons]
    exact (each item List.mem_cons_self value other related).bind fun _ _ later =>
      ih (fun item member => each item (List.mem_cons_of_mem _ member)) later

end Agree

end Secd.Results
