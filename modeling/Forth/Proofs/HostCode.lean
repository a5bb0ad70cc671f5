import Forth.Proofs.HostCalls
import Forth.Proofs.Suspension

/-!
# Words of a host that act on the session

A host hands its words the whole session.  Besides working on the machine, such a word may look a
name up in the dictionary, enter a word there, or submit a line.  A dictionary whose words were
functions of the session that holds it would have no type, so the session keeps an action for each
word of the host, and `HostCode` tells what stands behind that action.

This file has the interpreter in which the words of the host do what their code tells, and the calls
of a host on it.  It takes the steps of `Session.tick`, except where a word of the host is called
(`Session.hostCall?`).  If the code of each word is just its action, on the machine alone, then this
interpreter is the one that runs (`Session.frameTickBy_plain`, `Session.tickBy_plain`,
`Session.HostRun.by_plain`).
-/

namespace Forth

/-- What each word of the host does to the session.  The action under which the word is entered only
tells it from the other words. -/
abbrev HostCode := Exec Unit → Session.Interpretation Unit

/-- The words of the host do their actions, and those act on the machine alone. -/
abbrev HostCode.plain : HostCode := Session.lift

namespace Session

/-- The word of the host that the next step calls, if it calls one, and the session on which it
acts.  The call is already taken off the frames or off the line there. -/
def hostCall? (s : Session) : Option (Exec Unit × Session) :=
  match s.nextPrimitive? with
  | some (.host action, t) => some (action, t)
  | _ => none

/-! ## The interpreter -/

/-- One step of the line in progress. -/
def tickBy (code : HostCode) (s : Session) : Progress Session (Reply × Session) :=
  match s.machine.wait, s.hostCall? with
  | none, some (action, t) =>
    match (code action).run t with
    | .ok _ t => .more t
    | .error e t => .done (t.abandon e)
  | _, _ => s.tick

/-- One step of the line in progress and of the queued lines after it. -/
def tickAllBy (code : HostCode) (s : Session) : Progress Session (Reply × Session) :=
  match s.tickBy code with
  | .more t => .more t
  | .done (reply, t) =>
    match t.machine.wait, t.machine.queue with
    | none, text :: queue => .more ((t.onMachine fun m => { m with queue }).startLine text)
    | _, _ => .done (reply, t)

/-- One step of the scheduled frames alone.  A step that fails leaves the frames as they were. -/
def frameTickBy (code : HostCode) (s : Session) :
    Progress Session (Except Error Unit × Session) :=
  match s.machine.wait, s.frames, s.hostCall? with
  | none, _ :: _, some (action, t) =>
    match (code action).run t with
    | .ok _ t => .more t
    | .error e t => .done (.error e, { t with frames := s.frames })
  | _, _, _ => s.frameTick

/-! ## The calls -/

/-- The line or the event is answered with this reply, which leaves the session in the second
state. -/
inductive AnswersBy (code : HostCode) (s : Session) : Call → Reply → Session → Prop
  | queued (hline : s.line ≠ none) (text : String) :
    AnswersBy code s (.line text) (.ok .queued)
      (s.onMachine fun m => { m with queue := m.queue ++ [text] })
  | line {text : String} {reply : Reply} {t : Session} (hline : s.line = none)
    (h : Ends (tickBy code) (s.startLine text) (reply, t)) : AnswersBy code s (.line text) reply t
  | event {e : Event} {reply : Reply} {t : Session} (he : e.answers s.machine.wait)
    (h : Ends (tickAllBy code) (s.onMachine e.received) (reply, t)) :
    AnswersBy code s (.event e) reply t
  | refused {e : Event} (he : ¬ e.answers s.machine.wait) :
    AnswersBy code s (.event e) (.error (Event.refusal s.machine.wait)) s

/-- The lines and events are answered one after the other with these replies. -/
inductive RepliesBy (code : HostCode) : Session → List Call → List Reply → Session → Prop
  | nil (s : Session) : RepliesBy code s [] [] s
  | cons {s t u : Session} {c : Call} {calls : List Call} {reply : Reply} {replies : List Reply}
    (h : s.AnswersBy code c reply t) (rest : RepliesBy code t calls replies u) :
    RepliesBy code s (c :: calls) (reply :: replies) u

/-- The lines are submitted up to the first one that fails at once. -/
inductive LoadsBy (code : HostCode) : Session → List String → Except Error Unit → Session → Prop
  | nil (s : Session) : LoadsBy code s [] (.ok ()) s
  | failed {s t : Session} {text : String} {e : Error}
    (h : s.AnswersBy code (.line text) (.error e) t) (texts : List String) :
    LoadsBy code s (text :: texts) (.error e) t
  | cons {s t u : Session} {text : String} {texts : List String} {status : Status}
    {reply : Except Error Unit} (h : s.AnswersBy code (.line text) (.ok status) t)
    (rest : LoadsBy code t texts reply u) : LoadsBy code s (text :: texts) reply u

/-- The call comes to an end with this reply and leaves the session in the second state. -/
inductive ReturnsBy (code : HostCode) (s : Session) : HostCall → HostReply → Session → Prop
  | readLine {text : String} {reply : Reply} {t : Session}
    (h : s.AnswersBy code (.line text) reply t) :
    ReturnsBy code s (.readLine text) (reply.map some) t
  | readLines {texts : List String} {replies : List Reply} {t : Session}
    (h : RepliesBy code s (texts.map .line) replies t) :
    ReturnsBy code s (.readLines texts) ((replies.getLast?.getD (.ok .ok)).map some) t
  | loadSource {source : String} {reply : Except Error Unit} {t : Session}
    (h : LoadsBy code s (Text.lines source) reply t) :
    ReturnsBy code s (.loadSource source) (reply.map fun _ => none) t
  | deliver {e : Event} {reply : Reply} {t : Session} (h : s.AnswersBy code (.event e) reply t) :
    ReturnsBy code s (.deliver e) (reply.map some) t
  | runFrames {reply : Except Error Unit} {t : Session}
    (h : Ends (frameTickBy code) s (reply, t)) :
    ReturnsBy code s .runFrames (reply.map fun _ => none) t
  | recordKey (k : Cell) : ReturnsBy code s (.recordKey k) (.ok none) (s.recordKey k)
  | suspend (w : Wait) : ReturnsBy code s (.suspend w) (.ok none) (s.suspend w)
  | exec (action : Exec Unit) :
    ReturnsBy code s (.exec action) ((s.exec action).1.map fun _ => none) (s.exec action).2
  | addVariable (name : String) :
    ReturnsBy code s (.addVariable name) (.ok none) (s.addVariable name).2
  | addConstant (name : String) (n : Cell) :
    ReturnsBy code s (.addConstant name n) (.ok none) (s.addConstant name n)
  | addPrimitive (name : String) (p : Primitive) :
    ReturnsBy code s (.addPrimitive name p) (.ok none) (s.addPrimitive name p)

/-- The calls come to an end, one after the other. -/
inductive HostRunBy (code : HostCode) : Session → List HostCall → Session → Prop
  | nil (s : Session) : HostRunBy code s [] s
  | cons {s t u : Session} {c : HostCall} {calls : List HostCall} {reply : HostReply}
    (h : s.ReturnsBy code c reply t) (rest : HostRunBy code t calls u) :
    HostRunBy code s (c :: calls) u

/-! ## The steps -/

variable {code : HostCode} {s t : Session} {action : Exec Unit}

theorem nextPrimitive?_of_hostCall? (h : s.hostCall? = some (action, t)) :
    s.nextPrimitive? = some (.host action, t) := by
  unfold hostCall? at h
  split at h
  · rename_i hnext
    obtain ⟨rfl, rfl⟩ := Prod.mk.inj (Option.some.inj h)
    exact hnext
  · exact nomatch h

theorem tickBy_of_hostCall? (hwait : s.machine.wait = none)
    (h : s.hostCall? = some (action, t)) :
    s.tickBy code =
      match (code action).run t with
      | .ok _ t => .more t
      | .error e t => .done (t.abandon e) := by
  simp only [tickBy, hwait, h]

theorem tickBy_of_no_hostCall? (h : s.machine.wait = none → s.hostCall? = none) :
    s.tickBy code = s.tick := by
  unfold tickBy
  cases hwait : s.machine.wait with
  | some w => rfl
  | none => rw [h hwait]

theorem hostCall?_of_nextPrimitive? (h : s.nextPrimitive? = some (.host action, t)) :
    s.hostCall? = some (action, t) := by
  simp only [hostCall?, h]

theorem hostCall?_of_frames_iff (hframes : s.frames ≠ []) :
    s.hostCall? = some (action, t) ↔
      ∃ name rest below,
        s.frames = .block (.leaf (.invoke name (.primitive (.host action))) :: rest) :: below ∧
          t = { s with frames := .block rest :: below } := by
  constructor
  · intro h
    exact exists_call_of_nextPrimitive? hframes (nextPrimitive?_of_hostCall? h)
  · rintro ⟨name, rest, below, hs, rfl⟩
    exact hostCall?_of_nextPrimitive? (nextPrimitive?_of_frames hs)

/-- Either the next step calls a word of the host, or an event is awaited or it does something else. -/
theorem hostCall?_cases (s : Session) :
    (∃ action t, s.machine.wait = none ∧ s.hostCall? = some (action, t)) ∨
      (s.machine.wait = none → s.hostCall? = none) := by
  cases hcall : s.hostCall? with
  | none => exact .inr fun _ => rfl
  | some call =>
    cases hwait : s.machine.wait with
    | none => exact .inl ⟨call.1, call.2, rfl, rfl⟩
    | some w => exact .inr nofun

theorem frameTickBy_of_hostCall? (hwait : s.machine.wait = none) (hframes : s.frames ≠ [])
    (h : s.hostCall? = some (action, t)) :
    s.frameTickBy code =
      match (code action).run t with
      | .ok _ t => .more t
      | .error e t => .done (.error e, { t with frames := s.frames }) := by
  unfold frameTickBy
  rw [hwait, h]
  cases hs : s.frames with
  | nil => exact absurd hs hframes
  | cons f below => rfl

theorem frameTickBy_of_no_hostCall?
    (h : s.machine.wait = none → s.frames ≠ [] → s.hostCall? = none) :
    s.frameTickBy code = s.frameTick := by
  unfold frameTickBy
  cases hwait : s.machine.wait with
  | some w => rfl
  | none =>
    cases hframes : s.frames with
    | nil => rfl
    | cons f below => rw [h hwait (by simp [hframes])]

theorem tickAllBy_of_more (h : s.tickBy code = .more t) : s.tickAllBy code = .more t := by
  simp only [tickAllBy, h]

theorem tickAllBy_of_done {reply : Reply} (h : s.tickBy code = .done (reply, t))
    (hqueue : t.machine.queue = []) : s.tickAllBy code = .done (reply, t) := by
  simp only [tickAllBy, h, hqueue]
  cases t.machine.wait <;> rfl

/-! ## Words that act on the machine alone -/

theorem tickBy_plain : tickBy .plain = tick := by
  funext s
  cases hwait : s.machine.wait with
  | some w => exact tickBy_of_no_hostCall? fun h => nomatch hwait.symm.trans h
  | none =>
    cases hcall : s.hostCall? with
    | none => exact tickBy_of_no_hostCall? fun _ => hcall
    | some call =>
      obtain ⟨action, t⟩ := call
      rw [tickBy_of_hostCall? hwait hcall,
        tick_of_nextPrimitive? hwait (nextPrimitive?_of_hostCall? hcall)]
      rfl

theorem tickAllBy_plain : tickAllBy .plain = tickAll := by
  funext s
  have htick : s.tickBy .plain = s.tick := congrFun tickBy_plain s
  unfold tickAllBy tickAll
  generalize s.tickBy .plain = step at htick
  subst htick
  rfl

theorem frameTickBy_plain : frameTickBy .plain = frameTick := by
  funext s
  by_cases hstep : s.machine.wait = none ∧ s.frames ≠ []
  · obtain ⟨hwait, hframes⟩ := hstep
    cases hcall : s.hostCall? with
    | none => exact frameTickBy_of_no_hostCall? fun _ _ => hcall
    | some call =>
      obtain ⟨action, t⟩ := call
      rw [frameTickBy_of_hostCall? hwait hframes hcall]
      obtain ⟨name, rest, below, hs, rfl⟩ := (hostCall?_of_frames_iff hframes).1 hcall
      have hrun : (Primitive.host action).run = action := rfl
      simp only [frameTick, hwait, hs, lift_run, Frame.step_primitive_run, hrun]
      cases action.run s.machine <;> rfl
  · exact frameTickBy_of_no_hostCall? fun hwait hframes => absurd ⟨hwait, hframes⟩ hstep

/-- A line or an event is answered by plain words as the session answers it. -/
theorem answersBy_plain_iff {c : Call} {reply : Reply} :
    s.AnswersBy .plain c reply t ↔ s.Answers c reply t := by
  constructor
  · intro h
    cases h with
    | queued hline text =>
      obtain ⟨rest, hrest⟩ := Option.ne_none_iff_exists'.1 hline
      exact ⟨0, by simp only [call, Session.readLine, hrest]⟩
    | line hline h => exact (answers_line_iff hline).2 (tickBy_plain ▸ h)
    | event he h => exact (answers_event_iff he).2 (tickAllBy_plain ▸ h)
    | refused he => exact (answers_refused_event_iff he).2 ⟨rfl, rfl⟩
  · intro h
    cases c with
    | line text =>
      cases hline : s.line with
      | none => exact .line hline (tickBy_plain ▸ (answers_line_iff hline).1 h)
      | some rest =>
        obtain ⟨fuel, h⟩ := h
        simp only [call, Session.readLine, hline, Option.some.injEq, Prod.mk.injEq] at h
        obtain ⟨rfl, rfl⟩ := h
        exact .queued (by simp [hline]) text
    | event e =>
      by_cases he : e.answers s.machine.wait
      · exact .event he (tickAllBy_plain ▸ (answers_event_iff he).1 h)
      · obtain ⟨rfl, rfl⟩ := (answers_refused_event_iff he).1 h
        exact .refused he

/-- So are lines and events one after the other. -/
theorem repliesBy_plain_iff {calls : List Call} {replies : List Reply} :
    RepliesBy .plain s calls replies t ↔ Replies s calls replies t := by
  constructor
  · intro h
    induction h with
    | nil s => exact .nil s
    | cons h _ ih => exact .cons (answersBy_plain_iff.1 h) ih
  · intro h
    induction h with
    | nil s => exact .nil s
    | cons h _ ih => exact .cons (answersBy_plain_iff.2 h) ih

theorem loadsBy_plain {fuel : Nat} {texts : List String} {reply : Except Error Unit}
    (h : s.loadLines fuel texts = some (reply, t)) : LoadsBy .plain s texts reply t := by
  induction texts generalizing s with
  | nil =>
    obtain ⟨rfl, rfl⟩ := Prod.mk.inj (Option.some.inj h)
    exact .nil _
  | cons text texts ih =>
    obtain ⟨first, u, hread, hrest⟩ := loadLines_cons h
    have hfirst : s.AnswersBy .plain (.line text) first u := answersBy_plain_iff.2 ⟨fuel, hread⟩
    cases first with
    | error e =>
      obtain ⟨rfl, rfl⟩ := Prod.mk.inj hrest
      exact .failed hfirst texts
    | ok status => exact .cons hfirst (ih hrest)

/-- A batch is a sequence of lines, and its reply is the last one of theirs. -/
theorem exists_repliesBy_of_readLines {fuel : Nat} {texts : List String} {reply : Reply}
    (h : s.readLines fuel texts = some (reply, t)) :
    ∃ replies, RepliesBy .plain s (texts.map .line) replies t ∧
      replies.getLast?.getD (.ok .ok) = reply := by
  -- The replies that the rest of the batch would get go behind those of the lines so far.
  have hbatch := readLines_induction
    (I := fun left last u => ∀ replies, RepliesBy .plain u (left.map .line) replies t →
      ∃ all, RepliesBy .plain s (texts.map .line) all t ∧
        all.getLast?.getD (.ok .ok) = replies.getLast?.getD last)
    (fun u text left _ next v hleft hread replies hreplies => by
      obtain ⟨all, hall, hlast⟩ := hleft (next :: replies)
        (.cons (answersBy_plain_iff.2 ⟨fuel, hread⟩) hreplies)
      rw [List.getLast?_cons, Option.getD_some] at hlast
      exact ⟨all, hall, hlast⟩)
    (fun replies hreplies => ⟨replies, hreplies, rfl⟩) h
  exact hbatch [] (.nil t)

/-- What a host comes to by its calls, it comes to where its words act on the machine alone. -/
theorem Returns.by_plain {c : HostCall} {reply : HostReply} (h : s.Returns c reply t) :
    s.ReturnsBy .plain c reply t := by
  cases h with
  | @readLine fuel _ _ _ h => exact .readLine (answersBy_plain_iff.2 ⟨fuel, h⟩)
  | readLines h =>
    obtain ⟨replies, hreplies, rfl⟩ := exists_repliesBy_of_readLines h
    exact .readLines hreplies
  | loadSource h => exact .loadSource (loadsBy_plain h)
  | @deliver fuel _ _ _ h => exact .deliver (answersBy_plain_iff.2 ⟨fuel, h⟩)
  | runFrames h => exact .runFrames (frameTickBy_plain ▸ ends_of_runSteps h)
  | recordKey k => exact .recordKey k
  | suspend w => exact .suspend w
  | exec action => exact .exec action
  | addVariable name => exact .addVariable name
  | addConstant name n => exact .addConstant name n
  | addPrimitive name p => exact .addPrimitive name p

theorem HostRun.by_plain {permitted : Session → HostCall → Prop} {calls : List HostCall}
    (h : HostRun permitted s calls t) : HostRunBy .plain s calls t := by
  induction h with
  | nil s => exact .nil s
  | cons _ h _ ih => exact .cons h.by_plain ih

end Session

end Forth
