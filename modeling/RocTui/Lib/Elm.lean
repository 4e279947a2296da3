import RocTui.Lib.Run

namespace RocTui.Lib.Elm

/-- What a program makes of its start or of an event: the model it goes on with, what it wants to
hear of from now on, and what is to be done. -/
structure Turn (Model Sub Effect : Type) where
  m : Model
  sub : Sub
  effects : List Effect

/-- A program of the Elm architecture.  `none` stands for a crash, and `event` gives nothing at all
for an input that is not subscribed to. -/
structure Program (Ctx Model Sub Effect Event Input Page : Type) where
  init : Ctx → Option (Turn Model Sub Effect)
  event : Sub → Input → Option (Option Event)
  update : Ctx → Model → Event → Option (Turn Model Sub Effect)
  view : Model → Option Page
  exits : Effect → Bool

inductive Obs (Ctx Effect Input Page : Type)
  | init (c : Ctx)
  | effect (e : Effect)
  | page (page : Page)
  | update (c : Ctx) (i : Input)

inductive Phase (Model Sub Effect Event Input : Type)
  | init
  | effects (rest : List Effect) (turn : Turn Model Sub Effect)
  | view (turn : Turn Model Sub Effect)
  | wait (turn : Turn Model Sub Effect)
  | update (turn : Turn Model Sub Effect) (i : Input) (ev : Event)
  | ended
  | crashed

variable {Ctx Model Sub Effect Event Input Page : Type}

namespace Program

variable (p : Program Ctx Model Sub Effect Event Input Page)

inductive Step : Phase Model Sub Effect Event Input → List (Obs Ctx Effect Input Page) →
    Phase Model Sub Effect Event Input → Prop
  | init : p.init c = some turn → Step .init [.init c] (.effects turn.effects turn)
  | initCrashes : p.init c = none → Step .init [] .crashed
  | gone : Step .init [] .ended
  | effect : p.exits e = false → Step (.effects (e :: rest) turn) [.effect e] (.effects rest turn)
  | exit : p.exits e = true → Step (.effects (e :: rest) turn) [.effect e] .ended
  | effectsDone : Step (.effects [] turn) [] (.view turn)
  | view : p.view turn.m = some page → Step (.view turn) [.page page] (.wait turn)
  | viewCrashes : p.view turn.m = none → Step (.view turn) [] .crashed
  | event : p.event turn.sub i = some (some ev) → Step (.wait turn) [] (.update turn i ev)
  | eventCrashes : p.event turn.sub i = some none → Step (.wait turn) [] .crashed
  | noEvent : Step (.wait turn) [] .ended
  | update : p.update c turn.m ev = some turn' →
      Step (.update turn i ev) [.update c i] (.effects turn'.effects turn')
  | updateCrashes : p.update c turn.m ev = none → Step (.update turn i ev) [] .crashed

def answer (turn : Turn Model Sub Effect) (c : Ctx) (i : Input) :
    Option (Turn Model Sub Effect) := do
  let event ← p.event turn.sub i
  p.update c turn.m (← event)

def performing : List Effect → List (Obs Ctx Effect Input Page) → List (Obs Ctx Effect Input Page)
  | [], next => next
  | e :: rest, next => .effect e :: if p.exits e then [] else performing rest next

def waiting (turn : Turn Model Sub Effect) : List (Ctx × Input) → List (Obs Ctx Effect Input Page)
  | [] => []
  | (c, i) :: script => (p.answer turn c i).elim [] fun turn' =>
    .update c i :: p.performing turn'.effects ((p.view turn'.m).elim [] fun page =>
      .page page :: waiting turn' script)

def viewing (turn : Turn Model Sub Effect) (script : List (Ctx × Input)) :
    List (Obs Ctx Effect Input Page) :=
  (p.view turn.m).elim [] fun page => .page page :: p.waiting turn script

/-- All that is seen of the program when it is started with `c` and then told the script. -/
def transcript (c : Ctx) (script : List (Ctx × Input)) : List (Obs Ctx Effect Input Page) :=
  (p.init c).elim [] fun turn => .init c :: p.performing turn.effects (p.viewing turn script)

def reached (c : Ctx) (script : List (Ctx × Input)) : Option (Turn Model Sub Effect) := do
  let turn ← p.init c
  script.foldlM (fun turn told => p.answer turn told.1 told.2) turn

def due : Phase Model Sub Effect Event Input → List (Ctx × Input) →
    List (Obs Ctx Effect Input Page)
  | .effects rest turn, script => p.performing rest (p.viewing turn script)
  | .view turn, script => p.viewing turn script
  | .wait turn, script | .update turn _ _, script => p.waiting turn script
  | .init, _ | .ended, _ | .crashed, _ => []

end Program

def toldOf : Obs Ctx Effect Input Page → Option (Ctx × Input)
  | .update c i => some (c, i)
  | _ => none

def told (log : List (Obs Ctx Effect Input Page)) : List (Ctx × Input) := log.filterMap toldOf

def Phase.turn : Phase Model Sub Effect Event Input → Option (Turn Model Sub Effect)
  | .effects _ turn | .view turn | .wait turn | .update turn _ _ => some turn
  | .init | .ended | .crashed => none

def Crashes (p : Program Ctx Model Sub Effect Event Input Page) (turn : Turn Model Sub Effect) :
    Prop :=
  p.view turn.m = none ∨ (∃ i, p.event turn.sub i = some none) ∨
  ∃ c i ev, p.event turn.sub i = some (some ev) ∧ p.update c turn.m ev = none

/-- Where a run stands that was started with `c`. -/
inductive Stands (p : Program Ctx Model Sub Effect Event Input Page)
    (log : List (Obs Ctx Effect Input Page)) (c : Ctx) :
    Phase Model Sub Effect Event Input → Prop
  | going : phase.turn = some turn → p.reached c (told log) = some turn →
      (∀ more, p.transcript c (told log ++ more) = log ++ p.due phase more) →
      (∀ turn i ev, phase = .update turn i ev → p.event turn.sub i = some (some ev)) →
      Stands p log c phase
  | ended : (∀ more, log <+: p.transcript c (told log ++ more)) → Stands p log c .ended
  | crashed : (∀ more, log <+: p.transcript c (told log ++ more)) →
      p.reached c (told log) = some turn → Crashes p turn → Stands p log c .crashed

inductive Follows (p : Program Ctx Model Sub Effect Event Input Page) :
    List (Obs Ctx Effect Input Page) → Phase Model Sub Effect Event Input → Prop
  | unborn : Follows p [] .init
  | gone : Follows p [] .ended
  | stillborn : p.init c = none → Follows p [] .crashed
  | begun : log.head? = some (.init c) → Stands p log c phase → Follows p log phase

variable {p : Program Ctx Model Sub Effect Event Input Page}
  {log es : List (Obs Ctx Effect Input Page)} {phase phase' : Phase Model Sub Effect Event Input}

theorem told_append : told (log ++ es) = told log ++ told es := List.filterMap_append

theorem Stands.begins (h : Stands p log c phase) (more : List (Ctx × Input)) :
    log <+: p.transcript c (told log ++ more) := by
  cases h with
  | going _ _ due _ =>
    rw [due more]
    exact List.prefix_append _ _
  | ended begins => exact begins more
  | crashed begins _ _ => exact begins more

theorem performing_cons (e : Effect) (rest : List Effect)
    (next : List (Obs Ctx Effect Input Page)) (h : p.exits e = false) :
    p.performing (e :: rest) next = .effect e :: p.performing rest next := by
  rw [Program.performing, h]
  rfl

theorem waiting_cons (h : p.answer turn c i = some turn') (more : List (Ctx × Input)) :
    p.waiting turn ((c, i) :: more) =
      .update c i :: p.performing turn'.effects (p.viewing turn' more) := by
  rw [Program.waiting, h]
  rfl

theorem answer_eq (hev : p.event turn.sub i = some (some ev)) (c : Ctx) :
    p.answer turn c i = p.update c turn.m ev := by
  rw [Program.answer, hev]
  rfl

theorem event_of_answer (h : p.answer turn c i = some turn') :
    ∃ ev, p.event turn.sub i = some (some ev) ∧ p.update c turn.m ev = some turn' := by
  unfold Program.answer at h
  obtain ⟨out, hout, hrest⟩ := Option.bind_eq_some_iff.mp h
  obtain ⟨ev, rfl, hupdate⟩ := Option.bind_eq_some_iff.mp hrest
  exact ⟨ev, hout, hupdate⟩

theorem reached_nil (p : Program Ctx Model Sub Effect Event Input Page) (c : Ctx) :
    p.reached c [] = p.init c := by
  rw [Program.reached]
  cases p.init c <;> rfl

theorem reached_concat (p : Program Ctx Model Sub Effect Event Input Page) (c : Ctx)
    (script : List (Ctx × Input)) (next : Ctx × Input) :
    p.reached c (script ++ [next]) =
      (p.reached c script).bind fun turn => p.answer turn next.1 next.2 := by
  unfold Program.reached
  cases p.init c with
  | none => rfl
  | some first =>
    change (script ++ [next]).foldlM (fun turn told => p.answer turn told.1 told.2) first = _
    rw [List.foldlM_append]
    simp only [List.foldlM_cons, List.foldlM_nil, bind_pure]
    rfl

theorem reached_append {script : List (Ctx × Input)} (h : p.reached c script = some turn)
    (next : Ctx × Input) : p.reached c (script ++ [next]) = p.answer turn next.1 next.2 := by
  rw [reached_concat, h]
  rfl

theorem reached_induction {I : List (Ctx × Input) → Turn Model Sub Effect → Prop}
    (start : ∀ turn, p.init c = some turn → I [] turn)
    (next : ∀ {script turn told turn'}, p.reached c script = some turn → I script turn →
      p.answer turn told.1 told.2 = some turn' → I (script ++ [told]) turn')
    {script : List (Ctx × Input)} (h : p.reached c script = some turn) : I script turn := by
  induction script using List.reverseRecOn generalizing turn with
  | nil =>
    exact start turn ((reached_nil p c).symm.trans h)
  | append_singleton script told ih =>
    rw [reached_concat] at h
    obtain ⟨before, hbefore, hanswer⟩ := Option.bind_eq_some_iff.mp h
    exact next hbefore (ih hbefore) hanswer

theorem Stands.move (hreached : p.reached c (told log) = some turn)
    (hdue : ∀ more, p.transcript c (told log ++ more) = log ++ p.due phase more)
    (hquiet : told es = []) (hnext : phase'.turn = some turn)
    (hmove : ∀ more, p.due phase more = es ++ p.due phase' more)
    (hev : ∀ turn i ev, phase' = .update turn i ev → p.event turn.sub i = some (some ev)) :
    Stands p (log ++ es) c phase' := by
  refine .going hnext ?_ (fun more => ?_) hev
  · rwa [told_append, hquiet, List.append_nil]
  · rw [told_append, hquiet, List.append_nil, hdue, hmove, List.append_assoc]

theorem Follows.step (h : Follows p log phase) (hs : p.Step phase es phase') :
    Follows p (log ++ es) phase' := by
  cases h with
  | unborn =>
    cases hs with
    | @init c turn hi =>
      have reached : p.reached c [] = some turn := by
        rw [Program.reached, hi]
        rfl
      refine .begun (c := c) rfl (.going rfl reached (fun more => ?_) nofun)
      · change p.transcript c more = .init c :: p.due (.effects turn.effects turn) more
        rw [Program.transcript, hi]
        rfl
    | initCrashes hi => exact .stillborn hi
    | gone => exact .gone
  | gone => cases hs
  | stillborn => cases hs
  | @begun _ c _ hhead hstands =>
    have head : (log ++ es).head? = some (.init c) := by rw [List.head?_append, hhead]; rfl
    refine .begun head ?_
    cases hstands with
    | ended => cases hs
    | crashed => cases hs
    | @going turn _ hturn hreached hdue hev =>
      have begins (more : List (Ctx × Input)) :
          log ++ [] <+: p.transcript c (told (log ++ []) ++ more) := by
        rw [List.append_nil, hdue more]
        exact List.prefix_append _ _
      have reached : p.reached c (told (log ++ [])) = some turn := by rwa [List.append_nil]
      cases hs with
      | init | initCrashes | gone => cases hturn
      | effect he =>
        cases hturn
        exact Stands.move hreached hdue rfl rfl (fun more => performing_cons _ _ _ he) nofun
      | @exit e rest turn he =>
        refine .ended fun more => ?_
        have quiet : told [(.effect e : Obs Ctx Effect Input Page)] = [] := rfl
        rw [told_append, quiet, List.append_nil, hdue more]
        simp only [Program.due, Program.performing, he, if_true]
        exact List.prefix_rfl
      | effectsDone =>
        cases hturn
        exact Stands.move hreached hdue rfl rfl (fun _ => rfl) nofun
      | view hv =>
        cases hturn
        refine Stands.move hreached hdue rfl rfl (fun more => ?_) nofun
        change p.viewing _ more = _
        rw [Program.viewing, hv]
        rfl
      | viewCrashes hv =>
        cases hturn
        exact .crashed begins reached (.inl hv)
      | event he =>
        cases hturn
        refine Stands.move hreached hdue rfl rfl (fun _ => rfl) ?_
        rintro _ _ _ ⟨⟩
        exact he
      | eventCrashes he =>
        cases hturn
        exact .crashed begins reached (.inr (.inl ⟨_, he⟩))
      | noEvent => exact .ended begins
      | @update c' turn ev turn' i hu =>
        cases hturn
        have answered := (answer_eq (hev _ _ _ rfl) c').trans hu
        have next : told (log ++ [.update c' i]) = told log ++ [(c', i)] := by
          rw [told_append]
          rfl
        refine .going rfl ?_ (fun more => ?_) nofun
        · rw [next, reached_append hreached, answered]
        · rw [next, List.append_assoc, List.singleton_append, hdue]
          simp only [Program.due, waiting_cons answered, List.append_assoc, List.singleton_append]
      | updateCrashes hu =>
        cases hturn
        exact .crashed begins reached (.inr (.inr ⟨_, _, _, hev _ _ _ rfl, hu⟩))

def effectOf : Obs Ctx Effect Input Page → Option Effect
  | .effect e => some e
  | _ => none

def effectsIn (log : List (Obs Ctx Effect Input Page)) : List Effect := log.filterMap effectOf

def Phase.rest : Phase Model Sub Effect Event Input → List Effect
  | .effects rest _ => rest
  | _ => []

def Program.along (p : Program Ctx Model Sub Effect Event Input Page)
    (turn : Turn Model Sub Effect) : List (Ctx × Input) → List Effect
  | [] => turn.effects
  | (c, i) :: script => turn.effects ++ (p.answer turn c i).elim [] fun turn' =>
    along p turn' script

def Program.asked (p : Program Ctx Model Sub Effect Event Input Page) (c : Ctx)
    (script : List (Ctx × Input)) : List Effect :=
  (p.init c).elim [] fun turn => p.along turn script

theorem along_concat (p : Program Ctx Model Sub Effect Event Input Page)
    (script : List (Ctx × Input)) (next : Ctx × Input) (first : Turn Model Sub Effect) :
    p.along first (script ++ [next]) = p.along first script ++
      ((script ++ [next]).foldlM (fun turn told => p.answer turn told.1 told.2) first).elim []
        Turn.effects := by
  induction script generalizing first with
  | nil =>
    simp only [List.nil_append, List.foldlM_cons, List.foldlM_nil, bind_pure, Program.along]
  | cons told script ih =>
    obtain ⟨c, i⟩ := told
    rw [List.cons_append, List.foldlM_cons]
    simp only [Program.along]
    cases ha : p.answer first c i with
    | none => simp
    | some second => simp [ih]

theorem asked_concat (p : Program Ctx Model Sub Effect Event Input Page) (c : Ctx)
    (script : List (Ctx × Input)) (next : Ctx × Input) :
    p.asked c (script ++ [next]) =
      p.asked c script ++ (p.reached c (script ++ [next])).elim [] Turn.effects := by
  unfold Program.asked Program.reached
  cases p.init c with
  | none => rfl
  | some first => exact along_concat p script next first

structure Asked (p : Program Ctx Model Sub Effect Event Input Page)
    (log : List (Obs Ctx Effect Input Page)) (c : Ctx) (turn : Turn Model Sub Effect)
    (rest : List Effect) : Prop where
  head : log.head? = some (.init c)
  reached : p.reached c (told log) = some turn
  effects : effectsIn log ++ rest = p.asked c (told log)
  done : ∃ done, turn.effects = done ++ rest ∧ ∀ e ∈ done, p.exits e = false

theorem effectsIn_append : effectsIn (log ++ es) = effectsIn log ++ effectsIn es :=
  List.filterMap_append

theorem nil_of_init (h : Follows p log .init) : log = [] := by
  cases h with
  | unborn => rfl
  | begun _ hstands =>
    cases hstands with
    | going hturn => cases hturn

theorem event_of_update (h : Follows p log (.update turn i ev)) :
    p.event turn.sub i = some (some ev) := by
  cases h with
  | begun _ hstands =>
    cases hstands with
    | going _ _ _ hev => exact hev _ _ _ rfl

theorem Asked.quiet (h : Asked p log c turn rest) (hquiet : told es = [])
    (hmove : effectsIn es ++ rest' = rest)
    (hexit : ∀ e ∈ effectsIn es, p.exits e = false) : Asked p (log ++ es) c turn rest' := by
  obtain ⟨done, hdone, hgo⟩ := h.done
  refine ⟨?_, ?_, ?_, done ++ effectsIn es, ?_, fun e he => ?_⟩
  · rw [List.head?_append, h.head]
    rfl
  · rw [told_append, hquiet, List.append_nil, h.reached]
  · rw [told_append, hquiet, List.append_nil, ← h.effects, ← hmove, ← List.append_assoc]
    exact congrArg (· ++ rest') effectsIn_append
  · rw [hdone, ← hmove, List.append_assoc]
  · rcases List.mem_append.mp he with he | he
    · exact hgo e he
    · exact hexit e he

theorem Asked.step (h : ∀ turn, phase.turn = some turn → ∃ c, Asked p log c turn phase.rest)
    (hf : Follows p log phase) (hs : p.Step phase es phase') :
    ∀ turn, phase'.turn = some turn → ∃ c, Asked p (log ++ es) c turn phase'.rest := by
  intro turn hturn
  cases hs with
  | @init c turn' hi =>
    cases hturn
    obtain rfl := nil_of_init hf
    refine ⟨c, rfl, ?_, ?_, [], rfl, fun _ he => absurd he List.not_mem_nil⟩
    · exact (reached_nil p c).trans hi
    · change turn.effects = p.asked c []
      rw [Program.asked, hi]
      rfl
  | effect he =>
    cases hturn
    obtain ⟨c, hasked⟩ := h turn rfl
    refine ⟨c, hasked.quiet rfl rfl fun e' he' => ?_⟩
    rwa [List.mem_singleton.mp he']
  | effectsDone | event =>
    cases hturn
    obtain ⟨c, hasked⟩ := h turn rfl
    exact ⟨c, hasked.quiet rfl rfl fun _ he => absurd he List.not_mem_nil⟩
  | view =>
    cases hturn
    obtain ⟨c, hasked⟩ := h turn rfl
    exact ⟨c, hasked.quiet rfl rfl fun _ he => absurd he List.not_mem_nil⟩
  | @update c' ev _ before i hu =>
    cases hturn
    obtain ⟨c, hasked⟩ := h before rfl
    have answered := (answer_eq (event_of_update hf) c').trans hu
    have next : told (log ++ [.update c' i]) = told log ++ [(c', i)] := told_append
    refine ⟨c, ?_, ?_, ?_, [], rfl, fun _ he => absurd he List.not_mem_nil⟩
    · rw [List.head?_append, hasked.head]
      rfl
    · rw [next, reached_append hasked.reached, answered]
    · have before_asked : effectsIn log = p.asked c (told log) :=
        (List.append_nil _).symm.trans hasked.effects
      rw [next, asked_concat, reached_append hasked.reached, answered, ← before_asked]
      exact congrArg (· ++ turn.effects) (effectsIn_append.trans (List.append_nil _))
  | exit | initCrashes | gone | viewCrashes | eventCrashes | noEvent | updateCrashes => cases hturn

theorem follows (h : Run p.Step .init log phase) : Follows p log phase :=
  Run.invariant (I := Follows p) .unborn (fun hf hs => hf.step hs) h

theorem asked (h : Run p.Step .init log phase) (hturn : phase.turn = some turn) :
    ∃ c, Asked p log c turn phase.rest :=
  Run.invariant_of
    (I := fun log phase => ∀ turn, phase.turn = some turn → ∃ c, Asked p log c turn phase.rest)
    follows (fun _ hinit => by cases hinit) (fun hf ha hs => Asked.step ha hf hs) h turn hturn

/-- What has been told has been answered, and nothing is seen that the answers have not asked
for. -/
theorem effects_begin (h : Run p.Step .init log phase) (hhead : log.head? = some (.init c)) :
    ∃ turn, p.reached c (told log) = some turn ∧ effectsIn log <+: p.asked c (told log) := by
  refine Run.invariant_of (I := fun log _ => ∀ c, log.head? = some (.init c) → ∃ turn,
    p.reached c (told log) = some turn ∧ effectsIn log <+: p.asked c (told log)) (fun hr => hr)
    (fun _ hhead => by cases hhead) ?_ h c hhead
  intro past phase es phase' hr ih hs c hhead
  have hf := follows hr
  have begun (turn) (hturn : phase.turn = some turn) : Asked p past c turn phase.rest := by
    obtain ⟨c', h⟩ := asked hr hturn
    rw [List.head?_append, h.head] at hhead
    cases hhead
    exact h
  have quiet (hhead : past.head? = some (.init c)) (hes : told es = [])
      (hnone : effectsIn es = []) : ∃ turn, p.reached c (told (past ++ es)) = some turn ∧
        effectsIn (past ++ es) <+: p.asked c (told (past ++ es)) := by
    rw [told_append, hes, List.append_nil, effectsIn_append, hnone, List.append_nil]
    exact ih c hhead
  cases hs with
  | init hi =>
    obtain rfl := nil_of_init hf
    cases hhead
    exact ⟨_, (reached_nil p c).trans hi, List.nil_prefix⟩
  | initCrashes | gone =>
    rw [List.append_nil] at hhead
    exact quiet hhead rfl rfl
  | effect | exit =>
    have h := begun _ rfl
    rw [effectsIn_append, told_append, show told [_] = [] from rfl, List.append_nil, ← h.effects]
    exact ⟨_, h.reached, _, List.append_assoc _ _ _⟩
  | effectsDone | view | viewCrashes | event | eventCrashes | noEvent | updateCrashes =>
    exact quiet (begun _ rfl).head rfl rfl
  | update hu =>
    have h := begun _ rfl
    obtain ⟨-, -, hbegins⟩ := ih c h.head
    rw [effectsIn_append, told_append, show effectsIn [_] = [] from rfl, List.append_nil,
      show told [_] = [_] from rfl, asked_concat, reached_append h.reached,
      answer_eq (event_of_update hf), hu]
    exact ⟨_, rfl, hbegins.trans (List.prefix_append _ _)⟩

theorem rest_of_turns {P : Effect → Prop}
    (start : ∀ c turn, p.init c = some turn → ∀ e ∈ turn.effects, P e)
    (next : ∀ c m ev turn, p.update c m ev = some turn → ∀ e ∈ turn.effects, P e)
    (h : Run p.Step .init log phase) : ∀ e ∈ phase.rest, P e := by
  refine Run.invariant (I := fun _ phase => ∀ e ∈ phase.rest, P e)
    (fun _ he => absurd he List.not_mem_nil) (fun ih hs => ?_) h
  cases hs with
  | init hi => exact start _ _ hi
  | update hu => exact next _ _ _ _ hu
  | effect => exact fun e he => ih e (List.mem_cons_of_mem _ he)
  | _ => exact fun _ he => absurd he List.not_mem_nil

theorem born (h : Run p.Step .init log phase) : log = [] ∨ ∃ c, log.head? = some (.init c) := by
  cases follows h with
  | unborn | gone | stillborn => exact .inl rfl
  | begun hhead => exact .inr ⟨_, hhead⟩

theorem unborn (h : Run p.Step .init log .init) : log = [] := nil_of_init (follows h)

/-- What is seen of a program depends on what it is told, and on nothing else. -/
theorem begins (h : Run p.Step .init log phase) (hhead : log.head? = some (.init c)) :
    log <+: p.transcript c (told log) := by
  cases follows h with
  | unborn | gone | stillborn => cases hhead
  | begun hhead' hstands =>
    rw [hhead] at hhead'
    cases hhead'
    simpa using hstands.begins []

theorem complete (h : Run p.Step .init log (.wait turn)) : ∃ c, log.head? = some (.init c) ∧
    log = p.transcript c (told log) ∧ p.reached c (told log) = some turn := by
  cases follows h with
  | begun hhead hstands =>
    cases hstands with
    | going hturn hreached hdue hev =>
      cases hturn
      refine ⟨_, hhead, ?_, hreached⟩
      have all := hdue []
      rw [List.append_nil] at all
      rw [all]
      exact (List.append_nil _).symm

theorem crashed (h : Run p.Step .init log .crashed) : (log = [] ∧ ∃ c, p.init c = none) ∨
    ∃ c turn, log.head? = some (.init c) ∧ p.reached c (told log) = some turn ∧
      Crashes p turn := by
  cases follows h with
  | stillborn hi => exact .inl ⟨rfl, _, hi⟩
  | begun hhead hstands =>
    cases hstands with
    | going hturn => cases hturn
    | crashed _ hreached hcrashes => exact .inr ⟨_, _, hhead, hreached, hcrashes⟩

end RocTui.Lib.Elm
