/-!
# Steps that may fail

What a sequence of steps that may fail did, when all of it succeeded. A step either only has an
outcome, or changes a state as well.
-/

namespace StageArchive

section Pure

variable {ε ε' α β : Type}

/-- Two steps succeed together when each does. -/
theorem bind_eq_ok {first : Except ε α} {next : α → Except ε β} {value : β} :
    first >>= next = .ok value ↔ ∃ middle, first = .ok middle ∧ next middle = .ok value := by
  cases first with
  | error fault => exact ⟨nofun, nofun⟩
  | ok middle =>
      constructor
      · intro h
        exact ⟨middle, rfl, h⟩
      · intro hparts
        obtain ⟨other, hother, h⟩ := hparts
        cases hother
        exact h

/-- A step whose result is changed succeeds when the step does. -/
theorem map_eq_ok {outcome : Except ε α} {change : α → β} {value : β} :
    outcome.map change = .ok value ↔ ∃ before, outcome = .ok before ∧ change before = value := by
  cases outcome with
  | error fault => exact ⟨nofun, nofun⟩
  | ok before =>
      constructor
      · intro h
        exact ⟨before, rfl, Except.ok.inj h⟩
      · intro hparts
        obtain ⟨other, hother, rfl⟩ := hparts
        cases hother
        rfl

/-- Whether a step succeeds does not depend on a change to its result. -/
theorem exists_map_eq_ok {outcome : Except ε α} {change : α → β} :
    (∃ value, outcome.map change = .ok value) ↔ ∃ value, outcome = .ok value := by
  cases outcome with
  | error fault => exact ⟨nofun, nofun⟩
  | ok value => exact ⟨fun _ => ⟨value, rfl⟩, fun _ => ⟨change value, rfl⟩⟩

/-- A step whose result is changed fails as the step does. -/
theorem map_eq_error {outcome : Except ε α} {change : α → β} {fault : ε} :
    outcome.map change = .error fault ↔ outcome = .error fault := by
  cases outcome with
  | error other =>
      constructor
      · intro h
        cases h
        rfl
      · intro h
        cases h
        rfl
  | ok value => exact ⟨nofun, nofun⟩

/-- A step whose fault is reworded succeeds when the step does. -/
theorem mapError_eq_ok {outcome : Except ε α} {reword : ε → ε'} {value : α} :
    outcome.mapError reword = .ok value ↔ outcome = .ok value := by
  cases outcome with
  | error fault => exact ⟨nofun, nofun⟩
  | ok before =>
      constructor
      · intro h
        cases h
        rfl
      · intro h
        cases h
        rfl

/-- The fault of the first item at which something fails. -/
inductive FirstFault (fails : α → ε → Prop) : List α → ε → Prop
  | here {item : α} {rest : List α} {fault : ε} (h : fails item fault) :
      FirstFault fails (item :: rest) fault
  | later {item : α} {rest : List α} {fault : ε} (hpasses : ∀ earlier, ¬ fails item earlier)
      (hrest : FirstFault fails rest fault) : FirstFault fails (item :: rest) fault

/-- Nothing fails before the first item that does. -/
theorem firstFault_iff {fails : α → ε → Prop} {items : List α} {fault : ε} :
    FirstFault fails items fault ↔ ∃ before item after, items = before ++ item :: after ∧
      (∀ other ∈ before, ∀ earlier, ¬ fails other earlier) ∧ fails item fault := by
  constructor
  · intro h
    induction h with
    | here h => exact ⟨[], _, _, rfl, nofun, h⟩
    | later hpasses hrest ih =>
        obtain ⟨before, item, after, rfl, hbefore, h⟩ := ih
        exact ⟨_ :: before, item, after, rfl, List.forall_mem_cons.mpr ⟨hpasses, hbefore⟩, h⟩
  · rintro ⟨before, item, after, rfl, hbefore, h⟩
    induction before with
    | nil => exact .here h
    | cons other before ih =>
        obtain ⟨hother, hbefore⟩ := List.forall_mem_cons.mp hbefore
        exact .later hother (ih hbefore)

/-- Some item is the first to fail, unless none fails. -/
theorem exists_firstFault_iff {fails : α → ε → Prop} {items : List α} :
    (∃ fault, FirstFault fails items fault) ↔ ∃ item ∈ items, ∃ fault, fails item fault := by
  constructor
  · rintro ⟨fault, h⟩
    obtain ⟨before, item, after, rfl, -, h⟩ := firstFault_iff.mp h
    exact ⟨item, List.mem_append_right before (List.mem_cons_self ..), fault, h⟩
  · rintro ⟨item, hitem, fault, h⟩
    induction items with
    | nil => cases hitem
    | cons head rest ih =>
        by_cases hhead : ∃ earlier, fails head earlier
        · obtain ⟨earlier, hhead⟩ := hhead
          exact ⟨earlier, .here hhead⟩
        · rcases List.mem_cons.mp hitem with rfl | hitem
          · exact absurd ⟨fault, h⟩ hhead
          · obtain ⟨first, hfirst⟩ := ih hitem
            exact ⟨first, .later (not_exists.mp hhead) hfirst⟩

/-- Two steps fail together when the first does, or it succeeds and the second fails. -/
theorem bind_eq_error {first : Except ε α} {next : α → Except ε β} {fault : ε} :
    first >>= next = .error fault ↔
      first = .error fault ∨ ∃ middle, first = .ok middle ∧ next middle = .error fault := by
  cases first with
  | error earlier =>
      constructor
      · intro h
        exact .inl (congrArg Except.error (Except.error.inj h))
      · rintro (h | ⟨_, h, -⟩)
        · exact congrArg Except.error (Except.error.inj h)
        · cases h
  | ok middle =>
      constructor
      · intro h
        exact .inr ⟨middle, rfl, h⟩
      · rintro (h | ⟨_, heq, h⟩)
        · cases h
        · cases heq
          exact h

/-- A step for each item of a list fails as the first of these steps that does. -/
theorem mapM_eq_error {step : α → Except ε β} {items : List α} {fault : ε} :
    items.mapM step = .error fault ↔
      FirstFault (fun item fault => step item = .error fault) items fault := by
  induction items with
  | nil => exact ⟨nofun, nofun⟩
  | cons item items ih =>
      rw [List.mapM_cons, bind_eq_error]
      constructor
      · rintro (h | ⟨result, hresult, h⟩)
        · exact .here h
        · refine .later (fun earlier hearlier => nomatch hresult.symm.trans hearlier) ?_
          rcases bind_eq_error.mp h with h | ⟨_, -, h⟩
          · exact ih.mp h
          · cases h
      · intro h
        cases h with
        | here h => exact .inl h
        | later hpasses hrest =>
            cases hresult : step item with
            | error earlier => exact absurd hresult (hpasses earlier)
            | ok result => exact .inr ⟨result, rfl, bind_eq_error.mpr (.inl (ih.mpr hrest))⟩

/-- Steps over a list fail at the first of them that does, after those before it succeeded. -/
theorem foldlM_eq_error {step : β → α → Except ε β} {state : β} {items : List α} {fault : ε} :
    items.foldlM step state = .error fault ↔ ∃ before item after middle,
      items = before ++ item :: after ∧ before.foldlM step state = .ok middle ∧
        step middle item = .error fault := by
  constructor
  · intro h
    induction items generalizing state with
    | nil => cases h
    | cons first items ih =>
        rw [List.foldlM_cons] at h
        rcases bind_eq_error.mp h with hfirst | ⟨next, hnext, hothers⟩
        · exact ⟨[], first, items, state, rfl, rfl, hfirst⟩
        · obtain ⟨before, item, after, middle, rfl, hbefore, hitem⟩ := ih hothers
          refine ⟨first :: before, item, after, middle, rfl, ?_, hitem⟩
          rw [List.foldlM_cons]
          exact bind_eq_ok.mpr ⟨next, hnext, hbefore⟩
  · rintro ⟨before, item, after, middle, rfl, hbefore, hitem⟩
    rw [List.foldlM_append]
    refine bind_eq_error.mpr (.inr ⟨middle, hbefore, ?_⟩)
    rw [List.foldlM_cons]
    exact bind_eq_error.mpr (.inl hitem)

/-- A step for each item of a list succeeds when each step does. -/
theorem exists_mapM_eq_ok {step : α → Except ε β} {items : List α}
    (h : ∀ item ∈ items, ∃ result, step item = .ok result) :
    ∃ results, items.mapM step = .ok results := by
  induction items with
  | nil => exact ⟨[], rfl⟩
  | cons item items ih =>
      obtain ⟨result, hresult⟩ := h item (List.mem_cons_self ..)
      obtain ⟨results, hresults⟩ := ih fun other hother => h other (List.mem_cons_of_mem _ hother)
      refine ⟨result :: results, ?_⟩
      rw [List.mapM_cons, hresult, hresults]
      rfl

/-- A step that gives each item of a list back gives back the list. -/
theorem mapM_eq_ok_self {step : α → Except ε α} {items : List α}
    (h : ∀ item ∈ items, step item = .ok item) : items.mapM step = .ok items := by
  induction items with
  | nil => rfl
  | cons item items ih =>
      rw [List.mapM_cons, h item (List.mem_cons_self ..),
        ih fun other hother => h other (List.mem_cons_of_mem _ hother)]
      rfl

/-- The results of a step for each item are those of each step. -/
theorem map_some_of_mapM {step : α → Except ε β} {items : List α} {results : List β}
    (h : items.mapM step = .ok results) :
    results.map some = items.map fun item => (step item).toOption := by
  induction items generalizing results with
  | nil =>
      cases h
      rfl
  | cons item items ih =>
      rw [List.mapM_cons] at h
      obtain ⟨result, hresult, h⟩ := bind_eq_ok.mp h
      obtain ⟨others, hothers, h⟩ := bind_eq_ok.mp h
      cases h
      rw [List.map_cons, List.map_cons, ih hothers, hresult]
      rfl

/-- Two steps fail with the same fault, or both succeed with results that are related. -/
inductive Matched (related : α → β → Prop) : Except ε α → Except ε β → Prop
  | error (fault : ε) : Matched related (.error fault) (.error fault)
  | ok {first : α} {second : β} (h : related first second) : Matched related (.ok first) (.ok second)

namespace Matched

variable {γ δ : Type} {related : α → β → Prop} {first : Except ε α} {second : Except ε β}

/-- A step matches itself. -/
theorem refl (outcome : Except ε α) : Matched Eq outcome outcome := by
  cases outcome with
  | error fault => exact .error fault
  | ok value => exact .ok rfl

/-- A fault is reworded in the same way on both sides. -/
theorem mapError (h : Matched related first second) (reword : ε → ε') :
    Matched related (first.mapError reword) (second.mapError reword) := by
  cases h with
  | error fault => exact .error (reword fault)
  | ok h => exact .ok h

/-- Steps that match go on to steps that match. -/
theorem bind {next : α → Except ε γ} {other : β → Except ε δ} {after : γ → δ → Prop}
    (h : Matched related first second)
    (hnext : ∀ value found, related value found → Matched after (next value) (other found)) :
    Matched after (first >>= next) (second >>= other) := by
  cases h with
  | error fault => exact .error fault
  | ok h => exact hnext _ _ h

/-- Steps for the items of a list that match, match together. -/
theorem foldlM {items : List γ} {step : α → γ → Except ε α} {other : β → γ → Except ε β}
    (hstep : ∀ value found, related value found → ∀ item ∈ items,
      Matched related (step value item) (other found item))
    {value : α} {found : β} (h : related value found) :
    Matched related (items.foldlM step value) (items.foldlM other found) := by
  induction items generalizing value found with
  | nil => exact .ok h
  | cons item items ih =>
      rw [List.foldlM_cons, List.foldlM_cons]
      refine (hstep value found h item (List.mem_cons_self ..)).bind fun _ _ hmiddle => ?_
      exact ih (fun value found h other hother =>
        hstep value found h other (List.mem_cons_of_mem _ hother)) hmiddle

end Matched

end Pure

section Stateful

variable {ε σ α β : Type}

/-- Two steps on a state succeed together when the first does from the state and the second from
the state that the first leaves. -/
theorem run_bind_eq_ok {first : ExceptT ε (StateM σ) α} {next : α → ExceptT ε (StateM σ) β}
    {value : β} {before after : σ} :
    (first >>= next) before = (.ok value, after) ↔
      ∃ result middle, first before = (.ok result, middle) ∧
        next result middle = (.ok value, after) := by
  change ((match first before with
    | (outcome, middle) => ExceptT.bindCont next outcome middle) : Except ε β × σ) = _ ↔ _
  rcases hfirst : (first before : Except ε α × σ) with ⟨fault | result, middle⟩
  · constructor
    · intro h
      cases h
    · intro hparts
      obtain ⟨result, middle, heq, -⟩ := hparts
      cases heq
  · constructor
    · intro h
      exact ⟨result, middle, rfl, h⟩
    · intro hparts
      obtain ⟨result, middle, heq, h⟩ := hparts
      cases heq
      exact h

/-- A step goes on from what the one before it is known to do. -/
theorem run_bind_of_eq {first : ExceptT ε (StateM σ) α} {next : α → ExceptT ε (StateM σ) β}
    {before middle : σ} {result : α} (h : first before = (.ok result, middle)) :
    (first >>= next) before = next result middle := by
  change ((match first before with
    | (outcome, middle) => ExceptT.bindCont next outcome middle) : Except ε β × σ) = _
  rw [h]
  rfl

/-- A step behind one that fails is not taken. -/
theorem run_bind_of_error {first : ExceptT ε (StateM σ) α} {next : α → ExceptT ε (StateM σ) β}
    {before middle : σ} {fault : ε} (h : first before = (.error fault, middle)) :
    (first >>= next) before = (.error fault, middle) := by
  change ((match first before with
    | (outcome, middle) => ExceptT.bindCont next outcome middle) : Except ε β × σ) = _
  rw [h]
  rfl

/-- Steps that change nothing come to what their outcomes come to, one after the other. -/
theorem run_bind_unchanged {first : ExceptT ε (StateM σ) α} {next : α → ExceptT ε (StateM σ) β}
    {outcome : Except ε α} {rest : α → Except ε β} {state : σ} (hfirst : first state = (outcome, state))
    (hnext : ∀ value, next value state = (rest value, state)) :
    (first >>= next) state = (outcome >>= rest, state) := by
  cases outcome with
  | error fault => exact run_bind_of_error hfirst
  | ok value => exact (run_bind_of_eq hfirst).trans (hnext value)

/-- The outcome of steps that give a changed state only when all succeed, and the state after them. -/
def settled (outcome : Except ε (α × σ)) (before : σ) : Except ε α × σ :=
  match outcome with
  | .ok (value, after) => (.ok value, after)
  | .error fault => (.error fault, before)

/-- What fails leaves the state. -/
theorem settled_eq_error {outcome : Except ε (α × σ)} {before after : σ} {fault : ε} :
    settled outcome before = (.error fault, after) ↔ outcome = .error fault ∧ after = before := by
  cases outcome with
  | error other =>
      constructor
      · intro h
        cases h
        exact ⟨rfl, rfl⟩
      · rintro ⟨h, rfl⟩
        cases h
        rfl
  | ok result =>
      constructor
      · intro h
        cases h
      · rintro ⟨h, -⟩
        cases h

/-- What succeeds changes the state. -/
theorem settled_eq_ok {outcome : Except ε (α × σ)} {before after : σ} {value : α} :
    settled outcome before = (.ok value, after) ↔ outcome = .ok (value, after) := by
  cases outcome with
  | error other => exact ⟨nofun, nofun⟩
  | ok result =>
      constructor
      · intro h
        cases h
        rfl
      · intro h
        cases h
        rfl

/-- A step that changes nothing comes before those that may. -/
theorem run_bind_settled {first : ExceptT ε (StateM σ) α} {next : α → ExceptT ε (StateM σ) β}
    {outcome : Except ε α} {rest : α → Except ε (β × σ)} {before : σ}
    (hfirst : first before = (outcome, before))
    (hnext : ∀ value, next value before = settled (rest value) before) :
    (first >>= next) before = settled (outcome >>= rest) before := by
  cases outcome with
  | error fault => exact run_bind_of_error hfirst
  | ok value => exact (run_bind_of_eq hfirst).trans (hnext value)

/-- A step behind one that cannot fail goes on in the same way. -/
theorem run_mk_of_eq {first : StateM σ α} {next : α → StateM σ (Except ε β)} {before middle : σ}
    {result : α} (h : first before = (result, middle)) :
    (ExceptT.mk (first >>= next) : ExceptT ε (StateM σ) β) before = next result middle := by
  change StateT.bind first next before = _
  unfold StateT.bind
  rw [h]
  rfl

/-- A step that cannot fail succeeds with its result. -/
theorem run_lift_of_eq {first : StateM σ α} {before middle : σ} {result : α}
    (h : first before = (result, middle)) :
    (liftM first : ExceptT ε (StateM σ) α) before = (.ok result, middle) := by
  show (ExceptT.mk (first >>= fun found => pure (.ok found)) : ExceptT ε (StateM σ) α) before = _
  rw [run_mk_of_eq h]
  rfl

/-- A step goes on from the result and the state that are known of the one before it. -/
theorem run_bind_eq_ok_of {first : ExceptT ε (StateM σ) α} {next : α → ExceptT ε (StateM σ) β}
    {value : β} {before after middle : σ} {result : α} {condition : Prop}
    (h : ∀ other state, first before = (.ok other, state) ↔
      condition ∧ other = result ∧ state = middle) :
    (first >>= next) before = (.ok value, after) ↔
      condition ∧ next result middle = (.ok value, after) := by
  rw [run_bind_eq_ok]
  constructor
  · intro hparts
    obtain ⟨other, state, hfirst, hnext⟩ := hparts
    obtain ⟨hcondition, rfl, rfl⟩ := (h other state).mp hfirst
    exact ⟨hcondition, hnext⟩
  · intro hparts
    obtain ⟨hcondition, hnext⟩ := hparts
    exact ⟨result, middle, (h result middle).mpr ⟨hcondition, rfl, rfl⟩, hnext⟩

/-- A step goes on from the state that is known of the one before it, which has no result. -/
theorem run_bind_eq_ok_of_unit {first : ExceptT ε (StateM σ) Unit}
    {next : Unit → ExceptT ε (StateM σ) β} {value : β} {before after middle : σ}
    {condition : Prop}
    (h : ∀ state, first before = (.ok (), state) ↔ condition ∧ state = middle) :
    (first >>= next) before = (.ok value, after) ↔
      condition ∧ next () middle = (.ok value, after) := by
  refine run_bind_eq_ok_of fun other state => ?_
  rw [h state]
  constructor
  · intro hparts
    obtain ⟨hcondition, rfl⟩ := hparts
    exact ⟨hcondition, rfl, rfl⟩
  · intro hparts
    obtain ⟨hcondition, -, rfl⟩ := hparts
    exact ⟨hcondition, rfl⟩

/-- A step for each item that may fail and change a state has as many results as there are items. -/
theorem length_of_mapM_run {step : α → StateT σ (Except ε) β} {items : List α} {before after : σ}
    {results : List β} (h : (items.mapM step).run before = .ok (results, after)) :
    results.length = items.length := by
  induction items generalizing before results with
  | nil =>
      cases h
      rfl
  | cons item items ih =>
      rw [List.mapM_cons, StateT.run_bind] at h
      obtain ⟨⟨result, middle⟩, -, h⟩ := bind_eq_ok.mp h
      rw [StateT.run_bind] at h
      obtain ⟨⟨others, last⟩, hothers, h⟩ := bind_eq_ok.mp h
      cases h
      rw [List.length_cons, ih hothers, List.length_cons]

/-- A step that has one outcome in two states and leaves both as they are. -/
def Agrees (first second : σ) (step : ExceptT ε (StateM σ) α) : Prop :=
  ∃ outcome, step first = (outcome, first) ∧ step second = (outcome, second)

namespace Agrees

variable {first second : σ}

/-- A step without effects has one outcome everywhere. -/
theorem mk (outcome : Except ε α) :
    Agrees first second (ExceptT.mk (pure outcome) : ExceptT ε (StateM σ) α) :=
  ⟨outcome, rfl, rfl⟩

/-- A step that cannot fail has one outcome when its results are equal. -/
theorem lift {step : StateM σ α} {result : α} (hfirst : step first = (result, first))
    (hsecond : step second = (result, second)) :
    Agrees first second (liftM step : ExceptT ε (StateM σ) α) :=
  ⟨.ok result, run_lift_of_eq hfirst, run_lift_of_eq hsecond⟩

/-- Steps that each have one outcome have one together. -/
theorem bind {step : ExceptT ε (StateM σ) α} {next : α → ExceptT ε (StateM σ) β}
    (hstep : Agrees first second step) (hnext : ∀ value, Agrees first second (next value)) :
    Agrees first second (step >>= next) := by
  obtain ⟨outcome, hfirst, hsecond⟩ := hstep
  cases outcome with
  | error fault =>
      exact ⟨.error fault, run_bind_of_error hfirst, run_bind_of_error hsecond⟩
  | ok value =>
      obtain ⟨outcome, hthere, hthen⟩ := hnext value
      exact ⟨outcome, (run_bind_of_eq hfirst).trans hthere, (run_bind_of_eq hsecond).trans hthen⟩

/-- A step for each item of a list has one outcome when each step does. -/
theorem mapM {step : α → ExceptT ε (StateM σ) β} {items : List α}
    (h : ∀ item ∈ items, Agrees first second (step item)) :
    Agrees first second (items.mapM step) := by
  induction items with
  | nil => exact mk (.ok [])
  | cons item items ih =>
      rw [List.mapM_cons]
      exact (h item (List.mem_cons_self ..)).bind fun _ =>
        (ih fun other hother => h other (List.mem_cons_of_mem _ hother)).bind fun _ => mk (.ok _)

end Agrees

/-- A step has the same outcome in states that are related, and leaves them related. -/
def Respects (related : σ → σ → Prop) (step : ExceptT ε (StateM σ) α) : Prop :=
  ∀ first second, related first second →
    (step second).1 = (step first).1 ∧ related (step first).2 (step second).2

namespace Respects

variable {related : σ → σ → Prop}

/-- A step without effects has its outcome everywhere. -/
theorem mk (outcome : Except ε α) :
    Respects related (ExceptT.mk (pure outcome) : ExceptT ε (StateM σ) α) :=
  fun _ _ h => ⟨rfl, h⟩

/-- Steps that keep a relation keep it together. -/
theorem bind {step : ExceptT ε (StateM σ) α} {next : α → ExceptT ε (StateM σ) β}
    (hstep : Respects related step) (hnext : ∀ value, Respects related (next value)) :
    Respects related (step >>= next) := by
  intro first second h
  obtain ⟨houtcome, hafter⟩ := hstep first second h
  rcases hfirst : (step first : Except ε α × σ) with ⟨outcome, middle⟩
  rcases hsecond : (step second : Except ε α × σ) with ⟨other, counterpart⟩
  rw [hfirst, hsecond] at houtcome hafter
  obtain rfl : other = outcome := houtcome
  cases other with
  | error fault =>
      rw [run_bind_of_error hfirst, run_bind_of_error hsecond]
      exact ⟨rfl, hafter⟩
  | ok value =>
      rw [run_bind_of_eq hfirst, run_bind_of_eq hsecond]
      exact hnext value middle counterpart hafter

/-- A step for each item of a list keeps a relation when each step does. -/
theorem forM {step : α → ExceptT ε (StateM σ) Unit} {items : List α}
    (h : ∀ item, Respects related (step item)) : Respects related (items.forM step) := by
  induction items with
  | nil => exact mk (.ok ())
  | cons item items ih => exact (h item).bind fun _ => ih

end Respects

/-- From one state two steps fail with the same fault or succeed with results that are related, and leave
the same state. -/
def Meets (related : α → β → Prop) (before : σ) (step : ExceptT ε (StateM σ) α)
    (other : ExceptT ε (StateM σ) β) : Prop :=
  ∃ outcome counterpart after, step before = (outcome, after) ∧ other before = (counterpart, after) ∧
    Matched related outcome counterpart

namespace Meets

variable {γ δ : Type} {related : α → β → Prop} {before : σ}

/-- Steps without effects meet when their outcomes match. -/
theorem mk {first : Except ε α} {second : Except ε β} (h : Matched related first second) :
    Meets related before (ExceptT.mk (pure first) : ExceptT ε (StateM σ) α)
      (ExceptT.mk (pure second)) :=
  ⟨first, second, before, rfl, rfl, h⟩

/-- A step meets itself. -/
theorem refl (step : ExceptT ε (StateM σ) α) : Meets Eq before step step :=
  ⟨_, _, _, rfl, rfl, .refl _⟩

/-- Steps that meet go on to steps that meet. -/
theorem bind {step : ExceptT ε (StateM σ) α} {other : ExceptT ε (StateM σ) β}
    {next : α → ExceptT ε (StateM σ) γ} {later : β → ExceptT ε (StateM σ) δ}
    {result : γ → δ → Prop} (h : Meets related before step other)
    (hnext : ∀ value found, related value found → ∀ middle,
      Meets result middle (next value) (later found)) :
    Meets result before (step >>= next) (other >>= later) := by
  obtain ⟨outcome, counterpart, middle, hstep, hother, hmatched⟩ := h
  cases hmatched with
  | error fault =>
      exact ⟨_, _, middle, run_bind_of_error hstep, run_bind_of_error hother, .error fault⟩
  | ok hrelated =>
      obtain ⟨outcome, counterpart, after, hthen, hlater, hmatched⟩ := hnext _ _ hrelated middle
      exact ⟨outcome, counterpart, after, (run_bind_of_eq hstep).trans hthen,
        (run_bind_of_eq hother).trans hlater, hmatched⟩

end Meets

end Stateful

end StageArchive
