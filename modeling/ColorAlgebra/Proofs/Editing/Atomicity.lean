import ColorAlgebra.Proofs.Editing.Failure
import ColorAlgebra.Proofs.Editing.Guarded

namespace ColorAlgebra

variable {r : Range} {t : Format}

/-! ## Edits -/

/-- A command that works by key or slice, takes a color out, turns the palette or
combines it with another operand. A color that a key names has three channels to
change. -/
inductive Edit (r : Range) (t : Format) where
  | get (key : Key)
  | setChannel (key : Key) (channel : Fin 3) (v : Double)
  | set (key : Key) (c : Color r t)
  | insert (key : Key) (c : Color r t)
  | pop (key : Key)
  | popLast
  | remove (c : Color r t)
  | extract (s : Slice)
  | extractToSpare (s : Slice)
  | assign (s : Slice) (values : Source r t)
  | delete (s : Slice)
  | rotate (places : Int)
  | combine (op : Operation) (x : Argument r t)

def Edit.command : Edit r t → Command r t
  | get key => .get key
  | setChannel key channel v => .setChannel key channel v
  | set key c => .set key c
  | insert key c => .insert key c
  | pop key => .pop key
  | popLast => .popLast
  | remove c => .remove c
  | extract s => .extract s
  | extractToSpare s => .extractToSpare s
  | assign s values => .assign s values
  | delete s => .delete s
  | rotate places => .rotate places
  | combine op x => .combine op x

/-- What a failed edit reports: its error, or nothing in the place of a result. -/
inductive Failure where
  | error (e : Error)
  | nothing
  deriving DecidableEq, Repr

/-- The failure that a reply reports, if it does. -/
def Reply.failure? : Reply r t → Option Failure
  | .failed e => some (.error e)
  | .flag false => some .nothing
  | .color? none => some .nothing
  | _ => none

namespace Workspace

/-! ## Reachable workspaces -/

/-- No vector holds more elements than the largest signed word. -/
def Fits (w : Workspace r t) : Prop :=
  w.current.length ≤ maxLength ∧ w.spare.length ≤ maxLength

/-- The workspaces that commands lead to from an empty one. A command whose result does
not fit its vectors does not come back. -/
inductive Reachable : Workspace r t → Prop
  | start : Reachable ⟨[], []⟩
  | step {w : Workspace r t} (command : Command r t) :
      Reachable w → (w.run command).2.Fits → Reachable (w.run command).2

theorem Reachable.fits {w : Workspace r t} (h : w.Reachable) : w.Fits := by
  cases h with
  | start => exact ⟨Nat.zero_le _, Nat.zero_le _⟩
  | step command _ hfits => exact hfits

/-- Any two palettes that fit can be put in place by appending and swapping. -/
theorem reachable_iff {w : Workspace r t} : w.Reachable ↔ w.Fits := by
  refine ⟨Reachable.fits, fun ⟨hcurrent, hspare⟩ => ?_⟩
  have hzero : ([] : Palette r t).length ≤ maxLength := Nat.zero_le _
  have hfilled : Reachable (⟨w.spare, []⟩ : Workspace r t) :=
    .step (.append (.values w.spare)) .start ⟨hspare, hzero⟩
  have hswapped : Reachable (⟨[], w.spare⟩ : Workspace r t) := .step .swap hfilled ⟨hzero, hspare⟩
  exact .step (.append (.values w.current)) hswapped ⟨hcurrent, hspare⟩

/-! ## Causes of failure -/

/-- An edit fails with a failure: one rule for each cause. -/
@[mk_iff]
inductive Fails (w : Workspace r t) : Edit r t → Failure → Prop
  | get {key : Key} : ¬key.InRange w.current.length → Fails w (.get key) .nothing
  | setChannel {key : Key} {channel : Fin 3} {v : Double} :
      ¬key.InRange w.current.length → Fails w (.setChannel key channel v) .nothing
  | set {key : Key} {c : Color r t} : ¬key.InRange w.current.length →
      Fails w (.set key c) (.error (.indexOutOfRange key w.current.length))
  | pop {key : Key} : ¬key.InRange w.current.length → Fails w (.pop key) .nothing
  | popLast : w.current = [] → Fails w .popLast .nothing
  | remove {c : Color r t} : (∀ x ∈ w.current, x.equal c = false) →
      Fails w (.remove c) (.error .notFound)
  | extract {s : Slice} : s.step = 0 →
      Fails w (.extract s) (.error (.invalidSlice "slice step cannot be zero"))
  | extractToSpare {s : Slice} : s.step = 0 →
      Fails w (.extractToSpare s) (.error (.invalidSlice "slice step cannot be zero"))
  | assign {s : Slice} {values : Source r t} : s.step = 0 →
      Fails w (.assign s values) (.error (.invalidSlice "slice step cannot be zero"))
  | assignCount {s : Slice} {values : Source r t} {sel : Selection} {ps : List Nat} :
      s.step ≠ 1 → s.resolve w.current.length = .ok sel → sel.Walk ps →
      ps.length ≠ (w.colors values).length →
      Fails w (.assign s values) (.error (.lengthMismatch ps.length (w.colors values).length))
  | delete {s : Slice} : s.step = 0 →
      Fails w (.delete s) (.error (.invalidSlice "slice step cannot be zero"))
  | combine {op : Operation} {x : Argument r t} {xs : List (Color r t)} :
      w.operand x = .each xs → xs.length ≠ w.current.length →
      Fails w (.combine op x) (.error (.lengthMismatch w.current.length xs.length))

/-! ## Guarded edits -/

/-- The answer to taking a color out. -/
def taken (w : Workspace r t) : Option (Color r t × Palette r t) → Reply r t × Workspace r t
  | some (c, rest) => (.color? (some c), { w with current := rest })
  | none => w.answer (.color? none)

/-- Sets one channel of the color that a key names, with both indices checked. -/
def setChannelGuarded (w : Workspace r t) (key : Key) (channel : Nat) (v : Double) :
    Except OutOfBounds (Reply r t × Workspace r t) :=
  match key.position? w.current.length with
  | none => .ok (w.answer (.flag false))
  | some k => do
    let c ← Sequence.index w.current k
    let channels ← c.channels.set channel (v.convert t)
    let p ← Sequence.Guarded.write w.current k ⟨channels⟩
    return (.flag true, { w with current := p })

/-- Runs an edit with every index checked. The operations that go over the whole palette
take no index. -/
def runGuarded (w : Workspace r t) : Edit r t → Except OutOfBounds (Reply r t × Workspace r t)
  | .get key => (Sequence.Guarded.get? w.current key).map fun c => w.answer (.color? c)
  | .setChannel key channel v => w.setChannelGuarded key channel v
  | .set key c => (Sequence.Guarded.set w.current key c).map w.attempt
  | .insert key c => (Sequence.Guarded.insert w.current key c).map w.keep
  | .pop key => (Sequence.Guarded.pop? w.current key).map w.taken
  | .popLast => .ok (w.taken (Sequence.popLast? w.current))
  | .remove c =>
    (Sequence.Guarded.removeFirst? w.current fun x => x.equal c).map fun rest =>
      w.attempt (rest.elim (.error .notFound) .ok)
  | .extract s =>
    (Sequence.Guarded.extract w.current s).map fun
      | .ok p => w.answer (.palette p)
      | .error e => w.answer (.failed e)
  | .extractToSpare s =>
    (Sequence.Guarded.extract w.current s).map fun
      | .ok p => (.done, { w with spare := p })
      | .error e => w.answer (.failed e)
  | .assign s values => (Sequence.Guarded.assign w.current s (w.colors values)).map w.attempt
  | .delete s => (Sequence.Guarded.delete w.current s).map w.attempt
  | .rotate places => (Sequence.Guarded.rotate w.current places).map w.keep
  | .combine op x => .ok (w.attempt (w.current.combine op (w.operand x)))

theorem run_pop (w : Workspace r t) (key : Key) :
    w.run (.pop key) = w.taken (Sequence.pop? w.current key) := by
  simp only [run]
  cases Sequence.pop? w.current key <;> rfl

theorem run_popLast (w : Workspace r t) :
    w.run .popLast = w.taken (Sequence.popLast? w.current) := by
  simp only [run]
  cases Sequence.popLast? w.current <;> rfl

theorem setChannelGuarded_eq (w : Workspace r t) (key : Key) (channel : Fin 3) (v : Double) :
    w.setChannelGuarded key channel v = .ok (w.setChannel key channel v) := by
  unfold setChannelGuarded setChannel Sequence.get? Sequence.modify?
  cases h : key.position? w.current.length with
  | none => rfl
  | some k =>
    have hk := Key.position?_lt h
    dsimp only [Option.bind_some, Option.map_some]
    rw [Sequence.Guarded.index_of_lt hk, List.getElem?_eq_getElem hk]
    obtain ⟨channels, hchannels⟩ := w.current[k].channels.exists_set channel.isLt (v.convert t)
    show (w.current[k].channels.set channel (v.convert t)).bind _ = _
    dsimp only
    rw [hchannels]
    show (Sequence.Guarded.write w.current k ⟨channels⟩).bind _ = _
    rw [Sequence.Guarded.write_of_lt hk, List.set_eq_modify]
    rfl

/-- An edit takes no index out of bounds. -/
theorem runGuarded_eq (w : Workspace r t) (e : Edit r t) :
    w.runGuarded e = .ok (w.run e.command) := by
  cases e with
  | get key => exact congrArg (Except.map _) (Sequence.Guarded.get?_eq w.current key)
  | setChannel key channel v => exact w.setChannelGuarded_eq key channel v
  | set key c => exact congrArg (Except.map _) (Sequence.Guarded.set_eq w.current key c)
  | insert key c => exact congrArg (Except.map _) (Sequence.Guarded.insert_eq w.current key c)
  | pop key =>
    refine (congrArg (Except.map _) (Sequence.Guarded.pop?_eq w.current key)).trans ?_
    exact congrArg Except.ok (w.run_pop key).symm
  | popLast => exact congrArg Except.ok w.run_popLast.symm
  | remove c =>
    refine (congrArg (Except.map _) (Sequence.Guarded.removeFirst?_eq w.current _)).trans ?_
    simp only [Edit.command, run, Palette.remove]
    cases Sequence.removeFirst? w.current fun x => x.equal c <;> rfl
  | extract s =>
    refine (congrArg (Except.map _) (Sequence.Guarded.extract_eq w.current s)).trans ?_
    simp only [Edit.command, run]
    cases Sequence.extract w.current s <;> rfl
  | extractToSpare s =>
    refine (congrArg (Except.map _) (Sequence.Guarded.extract_eq w.current s)).trans ?_
    simp only [Edit.command, run]
    cases Sequence.extract w.current s <;> rfl
  | assign s values =>
    exact congrArg (Except.map _) (Sequence.Guarded.assign_eq w.current s (w.colors values))
  | delete s => exact congrArg (Except.map _) (Sequence.Guarded.delete_eq w.current s)
  | rotate places => exact congrArg (Except.map _) (Sequence.Guarded.rotate_eq w.current places)
  | combine op x => rfl

/-! ## When an edit fails -/

section
variable {w : Workspace r t} {f : Failure} {key : Key} {s : Slice} {c : Color r t}

/-! An edit that attempts an operation reports the error of the operation, and its rules are the
causes of that error. -/

theorem failure?_attempt {x : Except Error (Palette r t)} :
    (w.attempt x).1.failure? = some f ↔ ∃ e, x = .error e ∧ f = .error e := by
  cases x with
  | ok p => simp [attempt, keep, Reply.failure?]
  | error e => simp [attempt, Reply.failure?, eq_comm]

theorem failure?_extract :
    (w.run (.extract s)).1.failure? = some f ↔
      ∃ e, Sequence.extract w.current s = .error e ∧ f = .error e := by
  simp only [run]
  cases Sequence.extract w.current s with
  | ok p => simp [answer, Reply.failure?]
  | error e => simp [answer, Reply.failure?, eq_comm]

theorem failure?_extractToSpare :
    (w.run (.extractToSpare s)).1.failure? = some f ↔
      ∃ e, Sequence.extract w.current s = .error e ∧ f = .error e := by
  simp only [run]
  cases Sequence.extract w.current s with
  | ok p => simp [Reply.failure?]
  | error e => simp [answer, Reply.failure?, eq_comm]

theorem fails_remove_iff :
    w.Fails (.remove c) f ↔ ∃ e, w.current.remove c = .error e ∧ f = .error e := by
  simp [fails_iff, Palette.remove_eq_error_iff]

theorem fails_extract_iff :
    w.Fails (.extract s) f ↔ ∃ e, Sequence.extract w.current s = .error e ∧ f = .error e := by
  simp [fails_iff, Sequence.extract_eq_error_iff, Error.ofSlice, SliceError.message]

theorem fails_extractToSpare_iff :
    w.Fails (.extractToSpare s) f ↔
      ∃ e, Sequence.extract w.current s = .error e ∧ f = .error e := by
  simp [fails_iff, Sequence.extract_eq_error_iff, Error.ofSlice, SliceError.message]

theorem fails_delete_iff :
    w.Fails (.delete s) f ↔ ∃ e, Sequence.delete w.current s = .error e ∧ f = .error e := by
  simp [fails_iff, Sequence.delete_eq_error_iff, Error.ofSlice, SliceError.message]

theorem fails_combine_iff {op : Operation} {x : Argument r t} :
    w.Fails (.combine op x) f ↔
      ∃ e, w.current.combine op (w.operand x) = .error e ∧ f = .error e := by
  simp [fails_iff, Palette.combine_eq_error_iff, and_assoc]

theorem fails_assign_iff {values : Source r t} :
    w.Fails (.assign s values) f ↔
      ∃ e, Sequence.assign w.current s (w.colors values) = .error e ∧ f = .error e := by
  constructor
  · intro h
    cases h with
    | assign h => exact ⟨_, Sequence.assign_eq_error_iff.mpr (.inl ⟨h, rfl⟩), rfl⟩
    | @assignCount _ _ sel ps h1 hres hwalk hcount =>
      obtain rfl := Selection.walk_iff.mp hwalk
      rw [sel.length_positions] at hcount ⊢
      exact ⟨_, Sequence.assign_eq_error_iff.mpr (.inr ⟨h1, sel, hres, hcount, rfl⟩), rfl⟩
  · rintro ⟨e, he, rfl⟩
    rcases Sequence.assign_eq_error_iff.mp he with ⟨h, rfl⟩ | ⟨h1, sel, hres, hcount, rfl⟩
    · exact .assign h
    · rw [← sel.length_positions] at hcount ⊢
      exact .assignCount h1 hres sel.walk_positions hcount

/-! An edit that looks for a color reports nothing if there is none. -/

theorem failure?_color {x : Option (Color r t)} :
    (w.answer (.color? x)).1.failure? = some f ↔ x = none ∧ f = .nothing := by
  cases x with
  | none => simp [answer, Reply.failure?, eq_comm]
  | some x => simp [answer, Reply.failure?]

theorem failure?_taken {x : Option (Color r t × Palette r t)} :
    (w.taken x).1.failure? = some f ↔ x = none ∧ f = .nothing := by
  cases x with
  | none => exact failure?_color.trans (by simp)
  | some x => simp [taken, Reply.failure?]

theorem failure?_setChannel {channel : Fin 3} {v : Double} :
    (w.setChannel key channel v).1.failure? = some f ↔
      Sequence.get? w.current key = none ∧ f = .nothing := by
  unfold setChannel
  cases Sequence.get? w.current key with
  | none => simp [answer, Reply.failure?, eq_comm]
  | some c =>
    obtain ⟨channels, hset⟩ := c.channels.exists_set channel.isLt (v.convert t)
    simp [hset, Reply.failure?]

theorem fails_popLast_iff :
    w.Fails .popLast f ↔ Sequence.popLast? w.current = none ∧ f = .nothing := by
  simp [fails_iff, Sequence.popLast?_eq_none_iff]

section
variable (hlen : w.current.length ≤ maxLength)
include hlen

theorem fails_get_iff :
    w.Fails (.get key) f ↔ Sequence.get? w.current key = none ∧ f = .nothing := by
  simp [fails_iff, Sequence.get?_eq_none_iff, Key.position?_eq_none_iff hlen]

theorem fails_setChannel_iff {channel : Fin 3} {v : Double} :
    w.Fails (.setChannel key channel v) f ↔
      Sequence.get? w.current key = none ∧ f = .nothing := by
  simp [fails_iff, Sequence.get?_eq_none_iff, Key.position?_eq_none_iff hlen]

theorem fails_pop_iff :
    w.Fails (.pop key) f ↔ Sequence.pop? w.current key = none ∧ f = .nothing := by
  simp [fails_iff, Sequence.pop?_eq_none_iff, Key.position?_eq_none_iff hlen]

theorem fails_set_iff :
    w.Fails (.set key c) f ↔ ∃ e, Sequence.set w.current key c = .error e ∧ f = .error e := by
  simp [fails_iff, Sequence.set_eq_error_iff, Key.position?_eq_none_iff hlen]

/-- An edit fails exactly for its causes. -/
theorem failure?_eq_some_iff (e : Edit r t) (f : Failure) :
    (w.run e.command).1.failure? = some f ↔ w.Fails e f := by
  cases e with
  | get key => exact failure?_color.trans (fails_get_iff hlen).symm
  | setChannel key channel v => exact failure?_setChannel.trans (fails_setChannel_iff hlen).symm
  | set key c => exact failure?_attempt.trans (fails_set_iff hlen).symm
  | insert key c => exact iff_of_false nofun nofun
  | pop key =>
    rw [Edit.command, run_pop]
    exact failure?_taken.trans (fails_pop_iff hlen).symm
  | popLast =>
    rw [Edit.command, run_popLast]
    exact failure?_taken.trans fails_popLast_iff.symm
  | remove c => exact failure?_attempt.trans fails_remove_iff.symm
  | extract s => exact failure?_extract.trans fails_extract_iff.symm
  | extractToSpare s => exact failure?_extractToSpare.trans fails_extractToSpare_iff.symm
  | assign s values => exact failure?_attempt.trans fails_assign_iff.symm
  | delete s => exact failure?_attempt.trans fails_delete_iff.symm
  | rotate places => exact iff_of_false nofun nofun
  | combine op x => exact failure?_attempt.trans fails_combine_iff.symm

end

end

/-! ## Failed edits change nothing -/

section
variable {w : Workspace r t} {f : Failure}

theorem attempt_eq_of_failure? {x : Except Error (Palette r t)}
    (h : (w.attempt x).1.failure? = some f) : (w.attempt x).2 = w := by
  obtain ⟨e, rfl, -⟩ := failure?_attempt.mp h
  rfl

theorem taken_eq_of_failure? {x : Option (Color r t × Palette r t)}
    (h : (w.taken x).1.failure? = some f) : (w.taken x).2 = w := by
  obtain ⟨rfl, -⟩ := failure?_taken.mp h
  rfl

/-- An edit that fails changes nothing. -/
theorem eq_of_failure? {e : Edit r t} (h : (w.run e.command).1.failure? = some f) :
    (w.run e.command).2 = w := by
  cases e with
  | get key => rfl
  | setChannel key channel v =>
    have hget := (failure?_setChannel.mp h).1
    show (w.setChannel key channel v).2 = w
    unfold setChannel
    rw [hget]
    rfl
  | set | remove | assign | delete | combine => exact attempt_eq_of_failure? h
  | insert | rotate => cases h
  | pop key =>
    simp only [Edit.command, run_pop] at h ⊢
    exact taken_eq_of_failure? h
  | popLast =>
    simp only [Edit.command, run_popLast] at h ⊢
    exact taken_eq_of_failure? h
  | extract s =>
    obtain ⟨e, he, -⟩ := failure?_extract.mp h
    simp only [Edit.command, run, he]
    rfl
  | extractToSpare s =>
    obtain ⟨e, he, -⟩ := failure?_extractToSpare.mp h
    simp only [Edit.command, run, he]
    rfl

end

/-! ## Whole runs -/

/-- Runs edits in a row with every index checked. -/
def runAllGuarded (w : Workspace r t) (edits : List (Edit r t)) :
    Except OutOfBounds (Workspace r t) :=
  edits.foldlM (fun w e => (w.runGuarded e).map Prod.snd) w

/-- The edits of a run that do not fail. -/
def effective (w : Workspace r t) : List (Edit r t) → List (Edit r t)
  | [] => []
  | e :: rest =>
    let (reply, next) := w.run e.command
    if reply.failure? = none then e :: next.effective rest else next.effective rest

theorem runAll_cons (w : Workspace r t) (command : Command r t) (rest : List (Command r t)) :
    w.runAll (command :: rest) = (w.run command).2.runAll rest := rfl

/-- No edit of a run takes an index out of bounds. -/
theorem runAllGuarded_eq (w : Workspace r t) (edits : List (Edit r t)) :
    w.runAllGuarded edits = .ok (w.runAll (edits.map Edit.command)) := by
  unfold runAllGuarded
  induction edits generalizing w with
  | nil => rfl
  | cons e rest ih =>
    rw [List.foldlM_cons, runGuarded_eq, List.map_cons, runAll_cons]
    exact ih _

/-- In a run, the edits that fail can be left out. -/
theorem runAll_effective (w : Workspace r t) (edits : List (Edit r t)) :
    w.runAll ((w.effective edits).map Edit.command) = w.runAll (edits.map Edit.command) := by
  induction edits generalizing w with
  | nil => rfl
  | cons e rest ih =>
    unfold effective
    dsimp only
    rw [List.map_cons, runAll_cons]
    split
    · rw [List.map_cons, runAll_cons, ih]
    · next hfails =>
      obtain ⟨f, hf⟩ := Option.ne_none_iff_exists'.mp hfails
      rw [eq_of_failure? hf, ih]

/-- For every reachable workspace and every edit: every index that the edit takes is
within the bounds of the list it is taken of; the edit fails exactly for the causes
above, and then nothing has changed. For every run of edits: none of them faults, and
those that fail could as well have been left out. -/
theorem edit_safe_and_atomic {w : Workspace r t} (hw : w.Reachable) :
    (∀ e : Edit r t,
      w.runGuarded e = .ok (w.run e.command) ∧
      (∀ f, (w.run e.command).1.failure? = some f ↔ w.Fails e f) ∧
      ∀ f, w.Fails e f → (w.run e.command).2 = w) ∧
    ∀ edits : List (Edit r t),
      w.runAllGuarded edits = .ok (w.runAll (edits.map Edit.command)) ∧
      w.runAll ((w.effective edits).map Edit.command) = w.runAll (edits.map Edit.command) := by
  refine ⟨fun e => ⟨w.runGuarded_eq e, failure?_eq_some_iff hw.fits.1 e, fun f h => ?_⟩,
    fun edits => ⟨w.runAllGuarded_eq edits, w.runAll_effective edits⟩⟩
  exact eq_of_failure? ((failure?_eq_some_iff hw.fits.1 e f).mpr h)

/-- The least key of all, the longest backward step, and values that are too few. -/
theorem edit_safe_and_atomic_extreme :
    let w : Workspace .normal .double := ⟨[.splat .zero, .splat .one, .splat .nan], []⟩
    let key : Key := -0x8000000000000000
    let s : Slice := ⟨none, none, -0x8000000000000000⟩
    w.Reachable ∧
      w.run (.set key .zero) = (.failed (.indexOutOfRange key 3), w) ∧
      (w.run (.assign s (.values []))).1.failure? = some (.error (.lengthMismatch 1 0)) ∧
      (w.run (.assign s (.values []))).2 = w := by
  intro w key s
  have hw : w.Reachable := reachable_iff.mpr ⟨by decide, by decide⟩
  obtain ⟨hedit, -⟩ := edit_safe_and_atomic hw
  have hkey : w.Fails (.set key .zero) (.error (.indexOutOfRange key 3)) := .set (by decide)
  have hres : s.resolve 3 = .ok ⟨2, -0x8000000000000000, 1⟩ := by decide
  have hwalk : Selection.Walk ⟨2, -0x8000000000000000, 1⟩ [2] :=
    Selection.walk_iff.mpr (by decide)
  have hcount : w.Fails (.assign s (.values [])) (.error (.lengthMismatch 1 0)) :=
    .assignCount (by decide) hres hwalk (by decide)
  refine ⟨hw, ?_, ((hedit _).2.1 _).mpr hcount, (hedit _).2.2 _ hcount⟩
  exact Prod.ext rfl ((hedit (.set key .zero)).2.2 _ hkey)

end Workspace

end ColorAlgebra
