import ScopedEffects.Effect.CatchTable
import ScopedEffects.Proofs.Execution.Above

/-! What a table of handlers does with a failure, in terms of the entries that were made. Of the
entries for a key only the last one counts, whatever the kind of the others. An entry for a family
declines what has no payload of its type, and the step then settles with the failure it was given. -/

namespace ScopedEffects

variable {H : Host} {a : Shape H.Plain}

namespace CatchTable

/-- An entry for all failures of a key, or for a family of domain failures. -/
inductive Entry (H : Host) (a : Shape H.Plain) where
  | on (key : Key) (handler : Failure H → Code H (Effect H a))
  | onTag (tag : FailureTag H) (handler : H.El tag.type → Code H (Effect H a))

namespace Entry

def key : Entry H a → Key
  | on key _ => key
  | onTag tag _ => tag.key

/-- The table with one more entry. -/
def add (t : CatchTable H a) : Entry H a → CatchTable H a
  | on key handler => t.on key handler
  | onTag tag handler => t.onTag tag handler

/-- The entry answers a failure of its key by running code: an entry for a family does so just for
the domain failures with a payload of its type. -/
inductive Answers : Entry H a → Failure H → Code H (Effect H a) → Prop
  | on (key handler f) : Answers (.on key handler) f (handler f)
  | onTag (tag : FailureTag H) (handler) (message cause) (p : H.El tag.type) :
      Answers (.onTag tag handler) (.domain tag.key message (some ⟨tag.type, p⟩) cause) (handler p)

/-- What the table stores for an entry. -/
def handler : Entry H a → Failure H → Code H (Option (Effect H a))
  | on _ handler, f => (handler f).map some
  | onTag tag handler, f =>
    match tag.payload? f with
    | some p => (handler p).map some
    | none => .pure none

theorem handlers_add (t : CatchTable H a) (r : Entry H a) :
    (r.add t).handlers = t.handlers.set r.key r.handler := by
  cases r <;> rfl

end Entry

/-- The table that entries make, one after another. -/
def ofEntries (rs : List (Entry H a)) : CatchTable H a := rs.foldl Entry.add empty

/-- The last of the entries for a key. -/
def lastFor (rs : List (Entry H a)) (key : Key) : Option (Entry H a) :=
  (rs.filter fun r => r.key = key).getLast?

/-- The entries answer a failure by running code. -/
def Handles (rs : List (Entry H a)) (f : Failure H) (code : Code H (Effect H a)) : Prop :=
  ∃ r, lastFor rs f.key = some r ∧ r.Answers f code

/-- What the table does with a failure that is no defect. -/
def handle (t : CatchTable H a) (f : Failure H) : Code H (Option (Effect H a)) :=
  match t.handlers.get? f.key with
  | some handler => handler f
  | none => .pure none

theorem lastFor_append (rs : List (Entry H a)) (r : Entry H a) (key : Key) :
    lastFor (rs ++ [r]) key = if r.key = key then some r else lastFor rs key := by
  unfold lastFor
  rw [List.filter_append]
  by_cases same : r.key = key
  · rw [if_pos same, List.filter_cons_of_pos (by simpa using same), List.filter_nil]
    exact List.getLast?_concat
  · rw [if_neg same, List.filter_cons_of_neg (by simpa using same), List.filter_nil,
      List.append_nil]

theorem get?_ofEntries (rs : List (Entry H a)) (key : Key) :
    (ofEntries rs).handlers.get? key = (lastFor rs key).map Entry.handler := by
  -- from the back: the entry made last is the one that may shadow the others
  induction rs using List.reverseRecOn with
  | nil => rfl
  | append_singleton rs r ih =>
    have made : ofEntries (rs ++ [r]) = r.add (ofEntries rs) := by
      rw [ofEntries, List.foldl_append]
      rfl
    rw [made, r.handlers_add, OrderedMap.get?_set, lastFor_append, ih]
    by_cases same : r.key = key
    · rw [if_pos same.symm, if_pos same]
      rfl
    · rw [if_neg (Ne.symm same), if_neg same]

end CatchTable

theorem Store.perform_map {α β : Type} (s : Store H) (code : Code H α) (g : α → β) :
    s.perform (code.map g) = ((s.perform code).1.map g, (s.perform code).2) := rfl

/-- A payload is found just in the domain failures of the family that carry one of its type. -/
theorem FailureTag.payload?_eq_some {tag : FailureTag H} {f : Failure H} {p : H.El tag.type} :
    tag.payload? f = some p ↔
      ∃ message cause, f = .domain tag.key message (some ⟨tag.type, p⟩) cause := by
  constructor
  · intro found
    unfold FailureTag.payload? at found
    split at found
    · rename_i key message v cause
      split at found
      · rename_i same
        obtain ⟨type, x⟩ := v
        unfold PlainValue.at? at found
        split at found
        · rename_i typed
          dsimp only at typed
          subst typed
          cases found
          exact ⟨message, cause, by rw [same]⟩
        · cases found
      · cases found
    · cases found
  · rintro ⟨message, cause, rfl⟩
    simp [FailureTag.payload?, PlainValue.at?]

namespace CatchTable

theorem Entry.answers_or_declines (r : Entry H a) (f : Failure H) :
    (∃ code, r.Answers f code ∧ r.handler f = code.map some) ∨
      (∀ code, ¬ r.Answers f code) ∧ r.handler f = .pure none := by
  cases r with
  | on key handler => exact .inl ⟨_, .on key handler f, rfl⟩
  | onTag tag handler =>
    cases found : tag.payload? f with
    | some p =>
      obtain ⟨message, cause, rfl⟩ := FailureTag.payload?_eq_some.1 found
      refine .inl ⟨_, .onTag tag handler message cause p, ?_⟩
      rw [Entry.handler, found]
    | none =>
      refine .inr ⟨fun code answers => ?_, by rw [Entry.handler, found]⟩
      cases answers with
      | onTag _ _ message cause p =>
        rw [FailureTag.payload?_eq_some.2 ⟨message, cause, rfl⟩] at found
        cases found

theorem handles_or_declines (rs : List (Entry H a)) (f : Failure H) :
    (∃ code, Handles rs f code ∧ (ofEntries rs).handle f = code.map some) ∨
      (∀ code, ¬ Handles rs f code) ∧ (ofEntries rs).handle f = .pure none := by
  unfold handle
  rw [get?_ofEntries]
  cases last : lastFor rs f.key with
  | none =>
    refine .inr ⟨?_, rfl⟩
    rintro code ⟨r, found, -⟩
    rw [last] at found
    cases found
  | some r =>
    rcases r.answers_or_declines f with ⟨code, answers, eq⟩ | ⟨declines, eq⟩
    · exact .inl ⟨code, ⟨r, last, answers⟩, eq⟩
    · refine .inr ⟨?_, eq⟩
      rintro code ⟨r', found, answers⟩
      rw [last] at found
      cases found
      exact declines code answers

/-- How the step of a table goes on once its upstream has settled, and what it leaves of the
store. -/
inductive GoesOn (rs : List (Entry H a)) (env : Env) (s : Store H) :
    Exit H → Execution H → Store H → Prop
  | success (v : Value H) : GoesOn rs env s (.ok v) (.settled (.ok v)) s
  | defect {f : Failure H} (defect : f.isDefect = true) :
      GoesOn rs env s (.error f) (.settled (.error f)) s
  | declined {f : Failure H} (recoverable : f.isDefect = false)
      (none_handles : ∀ code, ¬ Handles rs f code) :
      GoesOn rs env s (.error f) (.settled (.error f)) s
  | recovers {f : Failure H} {code : Code H (Effect H a)} {e : Effect H a} {s' : Store H}
      (recoverable : f.isDefect = false) (handles : Handles rs f code)
      (answers : s.perform code = (.ok e, s')) :
      GoesOn rs env s (.error f) (.enter e.node env) s'
  | panics {f : Failure H} {code : Code H (Effect H a)} {p : Panic} {s' : Store H}
      (recoverable : f.isDefect = false) (handles : Handles rs f code)
      (answers : s.perform code = (.error p, s')) :
      GoesOn rs env s (.error f) (.settled (.error (.ofPanic p))) s'

/-- The frame of a table's step. -/
def frame (t : CatchTable H a) : Frame H :=
  .recover fun f => (t.handle f).map (Option.map Effect.node)

theorem goesOn_resume [Tracing H] (rs : List (Entry H a)) (env : Env) (s : Store H)
    (exit : Exit H) :
    GoesOn rs env s exit ((ofEntries rs).frame.resume env exit s).1
      ((ofEntries rs).frame.resume env exit s).2 := by
  cases exit with
  | ok v => exact .success v
  | error f =>
    cases recoverable : f.isDefect with
    | true =>
      rw [frame, Execution.resume_recover_defect recoverable]
      exact .defect recoverable
    | false =>
      unfold frame Frame.resume
      dsimp only
      rw [if_neg (by rw [recoverable]; exact Bool.false_ne_true)]
      unfold Execution.build
      rw [Store.perform_map]
      rcases handles_or_declines rs f with ⟨code, handles, eq⟩ | ⟨declines, eq⟩
      · rw [eq, Store.perform_map]
        rcases answers : s.perform code with ⟨p | e, s'⟩
        · exact .panics recoverable handles answers
        · exact .recovers recoverable handles answers
      · rw [eq]
        exact .declined recoverable declines

/-- How far the step of a table is: it waits for its upstream `c`, has gone on after that has
settled, or lets a panic pass. -/
inductive Stage [Tracing H] (rs : List (Entry H a)) (env : Env) (q c : Course H) (t : Nat) : Prop
  | waits (here : q.state t = .frame env (ofEntries rs).frame (c.state t))
  | gone {m exit} (before : m < t) (settled : c.state m = .settled exit) (moves : q.Moves m)
      (goes_on : GoesOn rs env (q.store m) exit (q.state (m + 1)) (q.store (m + 1)))
  | passed {m p} (before : m < t) (unwound : c.state m = .unwound p) (moves : q.Moves m)
      (passes : q.state (m + 1) = .unwound p) (unchanged : q.store (m + 1) = q.store m)

theorem Stage.next [Tracing H] {rs : List (Entry H a)} {env : Env} {q c : Course H} {t : Nat}
    (above : q.Above c env (ofEntries rs).frame) (stage : Stage rs env q c t) :
    Stage rs env q c (t + 1) := by
  cases stage with
  | gone before settled moves goes_on =>
    exact .gone (Nat.lt_succ_of_lt before) settled moves goes_on
  | passed before unwound moves passes unchanged =>
    exact .passed (Nat.lt_succ_of_lt before) unwound moves passes unchanged
  | waits here =>
    rcases q.step t with moves | same
    · have moved := Course.frame_moves here moves
      generalize next : q.state (t + 1) = y, left : q.store (t + 1) = s at moved
      cases moved with
      | resumes settled =>
        refine .gone (Nat.lt_succ_self t) settled moves ?_
        rw [next, left]
        exact goesOn_resume rs env (q.store t) _
      | passes unwound => exact .passed (Nat.lt_succ_self t) unwound moves next left
      | moves running moved =>
        refine .waits ?_
        rw [above.above running next, next]
      | expires _ timeout => cases timeout
    · cases ended : (c.state t).ended with
      | true =>
        refine .waits ?_
        rw [same, here, c.ended_stays ended]
      | false =>
        refine .waits ?_
        rw [above.above ended (same.trans here), same, here]

end CatchTable

namespace Course

variable [Tracing H]

/-- The step of a table runs its upstream in its own environment and goes on when that has settled.
A success and a defect pass. Any other failure is handled by the last entry for its key if that
answers it, and passes as it is otherwise; an entry that is not the last for its key, or declines,
runs nothing. The handler's effect takes the place of the step, and a panic of the handler's code is
an unexpected failure. A table of one entry makes the same effect as the step for that entry
alone. -/
theorem catchTable_law (e : Effect H a) :
    (∀ (rs : List (CatchTable.Entry H a)) (r : Course H) (env : Env) (m : Nat),
      r.state m = .enter (e.catchTable (.ofEntries rs)).node env → r.Moves m →
        ∃ q c : Course H, q = r.later (m + 1) ∧ q.store 0 = r.store m ∧
          c.state 0 = .enter e.node env ∧ c.store = q.store ∧
          (∀ t, CatchTable.Stage rs env q c t) ∧
          ∀ t exit, q.state t = .frame env (CatchTable.ofEntries rs).frame (.settled exit) →
            ∀ policy depth s, ∃ y s', (q.state t).move policy depth s = some (y, s') ∧
              CatchTable.GoesOn rs env s exit y s') ∧
    (∀ key handler, e.catchTable (CatchTable.empty.on key handler) = e.catchKey key handler) ∧
    ∀ tag handler, e.catchTable (CatchTable.empty.onTag tag handler) = e.catchTag tag handler := by
  refine ⟨fun rs r env m entering starts => ?law, fun key handler => ?single,
    fun tag handler => ?tagged⟩
  case law =>
    obtain ⟨policy, depth, moved⟩ := starts
    rw [entering, Execution.move] at moved
    have started := Option.some.inj moved
    have begun : (r.later (m + 1)).state 0 =
        .frame env (CatchTable.ofEntries rs).frame (.enter e.node env) :=
      (congrArg Prod.fst started).symm
    have lasting : ∀ deadline after child fallback,
        (CatchTable.ofEntries rs).frame ≠ .timeout deadline after child fallback := by
      rintro _ _ _ _ timeout
      cases timeout
    obtain ⟨c, begins, above⟩ := exists_above lasting begun
    refine ⟨r.later (m + 1), c, rfl, (congrArg Prod.snd started).symm, begins, above.shared,
      fun t => ?_, fun t exit here policy depth s => ?_⟩
    · induction t with
      | zero => exact .waits above.begun
      | succ t ih => exact ih.next above
    · rw [here]
      exact ⟨_, _, rfl, CatchTable.goesOn_resume rs env s exit⟩
  case single =>
    refine congrArg e.recover (funext fun f => ?_)
    rw [CatchTable.on, OrderedMap.get?_set]
    by_cases same : f.key = key
    · rw [if_pos same, if_pos same]
    · rw [if_neg same, if_neg same]
      rfl
  case tagged =>
    refine congrArg e.recover (funext fun f => ?_)
    rw [CatchTable.onTag, OrderedMap.get?_set]
    by_cases same : f.key = tag.key
    · rewrite [if_pos same]
      rfl
    · rw [if_neg same]
      cases found : tag.payload? f with
      | none => rfl
      | some p =>
        obtain ⟨message, cause, rfl⟩ := FailureTag.payload?_eq_some.1 found
        exact absurd rfl same

/-! A failure with a payload, and two entries for its key -/

def lost : FailureTag Host.counting := ⟨"lost", ()⟩

def lostEntries : List (CatchTable.Entry Host.counting (.plain ())) :=
  [.on "lost" fun _ => .panic .other, .onTag lost fun (n : Nat) => .pure (.succeed n)]

def lostEnv : Env := ⟨⟨0, []⟩, .root 0, none⟩

def lostEffect : Effect Host.counting (.plain ()) := .fail (lost.failure (7 : Nat))

def lostAnswer : Effect Host.counting (.plain ()) := .succeed (7 : Nat)

def lostStore : Store Host.counting := { user := (0 : Nat) }

def lostCourse : Course Host.counting where
  state
    | 0 => .enter (lostEffect.catchTable (.ofEntries lostEntries)).node lostEnv
    | 1 => .frame lostEnv (CatchTable.ofEntries lostEntries).frame (.enter lostEffect.node lostEnv)
    | 2 => .frame lostEnv (CatchTable.ofEntries lostEntries).frame
        (.settled (.error (lost.failure (7 : Nat))))
    | _ => .enter lostAnswer.node lostEnv
  store _ := lostStore
  step
    | 0 | 1 | 2 => .inl ⟨.standard, 0, rfl⟩
    | _ + 3 => .inr rfl

/-- The later entry recovers with the payload, though the earlier one is for all failures. -/
theorem later_entry_recovers : CatchTable.GoesOn lostEntries lostEnv lostStore
    (.error (lost.failure (7 : Nat))) (.enter lostAnswer.node lostEnv)
    lostStore := by
  obtain ⟨law, -, -⟩ := catchTable_law lostEffect
  obtain ⟨q, c, rfl, -, -, -, -, goes_on⟩ := law lostEntries lostCourse lostEnv 0 rfl
    ⟨.standard, 0, rfl⟩
  obtain ⟨y, s', moved, went⟩ := goes_on 1 _ rfl .standard 0 lostStore
  cases moved
  exact went

end Course

end ScopedEffects
