import Forth.Proofs.PartialCompile
import Forth.Proofs.Reachable

/-!
# A line that defines a word

A line of the form `: name body ;` gathers the actions of the body one by one and compiles them at
the semicolon.  If the tokens of the body stand for actions that can be compiled, the line ends well
and all that it changes is the dictionary, besides its reply in the printed text
(`ends_definition`).  This needs that `:` and `;` still stand for the control words, for a program
may give them another meaning.

The text of a line enters only through its tokens (`next?_of_tokens_cons`).
-/

namespace Forth

/-! ## Tokens and actions -/

namespace Token

theorem next?_of_tokens_nil {cs : List Char} (h : tokens cs = []) : next? cs = none := by
  cases hnext : next? cs with
  | none => rfl
  | some taken =>
    rw [tokens_of_next? hnext] at h
    exact nomatch h

theorem next?_of_tokens_cons {cs : List Char} {t : Token} {ts : List Token}
    (h : tokens cs = t :: ts) : ∃ rest, next? cs = some (t, rest) ∧ tokens rest = ts := by
  cases hnext : next? cs with
  | none =>
    rw [tokens_of_next?_none hnext] at h
    exact nomatch h
  | some taken =>
    rw [tokens_of_next? hnext] at h
    obtain ⟨rfl, rfl⟩ := List.cons.inj h
    exact ⟨taken.2, rfl, rfl⟩

/-- The tokens stand for these actions. -/
def Resolve (d : Dictionary) (ts : List Token) (actions : List Action) : Prop :=
  ts.map (resolve d) = actions.map .ok

theorem Resolve.nil {d : Dictionary} {actions : List Action} (h : Resolve d [] actions) :
    actions = [] := by
  cases actions with
  | nil => rfl
  | cons a actions => exact nomatch h

theorem Resolve.cons {d : Dictionary} {t : Token} {ts : List Token} {actions : List Action}
    (h : Resolve d (t :: ts) actions) :
    ∃ a rest, actions = a :: rest ∧ t.resolve d = .ok a ∧ Resolve d ts rest := by
  cases actions with
  | nil => exact nomatch h
  | cons a actions =>
    obtain ⟨ht, hts⟩ := List.cons.inj h
    exact ⟨a, actions, rfl, ht, hts⟩

theorem Resolve.usesOnly {P : Primitive → Prop} {d : Dictionary} {ts : List Token}
    {actions : List Action} (h : Resolve d ts actions) (hd : ∀ entry ∈ d, entry.2.UsesOnly P) :
    ∀ a ∈ actions, a.UsesOnly P := by
  intro a ha
  have hmem : Except.ok a ∈ ts.map (resolve d) := by
    rw [show ts.map (resolve d) = _ from h]
    exact List.mem_map_of_mem ha
  obtain ⟨t, -, ht⟩ := List.mem_map.1 hmem
  exact resolve_usesOnly hd ht

theorem resolve_control {d : Dictionary} {name : String} {c : Control}
    (h : d.find? name = some (.control c)) : (word name).resolve d = .ok (.control c) := by
  simp only [resolve, h]

end Token

open Token (tokens Resolve)

/-- A body that is compiled holds no semicolon. -/
theorem Construction.ne_semicolon_of_compileRest {c : Construction} {actions : List Action}
    {body : Body} (h : c.compileRest actions = .ok body) :
    ∀ a ∈ actions, a ≠ .control .semicolon := by
  induction actions generalizing c with
  | nil => exact fun a ha => nomatch ha
  | cons b actions ih =>
    obtain ⟨c', hfeed, hrest⟩ := compileRest_cons_ok h
    intro a ha
    obtain rfl | ha := List.mem_cons.1 ha
    · rintro rfl
      exact nomatch hfeed
    · exact ih hrest a ha

namespace Session

/-! ## Steps that take a token -/

section

variable {s : Session} {l : List Char} {ts : List Token}

theorem tick_of_token {t : Token} {a : Action} (hwait : s.machine.wait = none)
    (hframes : s.frames = []) (hline : s.line = some l) (hts : tokens l = t :: ts)
    (ha : t.resolve s.dictionary = .ok a) :
    ∃ rest, tokens rest = ts ∧
      s.tick =
        match (dispatch a).run { s with line := some rest } with
        | .ok _ s => .more s
        | .error e s => .done (s.abandon e) := by
  obtain ⟨rest, hnext, hrest⟩ := Token.next?_of_tokens_cons hts
  have hbind : s.line.bind Token.next? = some (t, rest) := by rw [hline, Option.bind_some, hnext]
  refine ⟨rest, hrest, ?_⟩
  unfold tick
  simp only [hwait]
  rw [advance_run_token hframes hbind ha]
  simp only [EStateM.run_bind]
  cases (dispatch a).run { s with line := some rest } <;> rfl

theorem tick_of_end (hwait : s.machine.wait = none) (hframes : s.frames = [])
    (hline : s.line = some l) (hts : tokens l = []) : s.tick = .done s.finishLine := by
  have hbind : s.line.bind Token.next? = none := by
    rw [hline, Option.bind_some, Token.next?_of_tokens_nil hts]
  unfold tick
  simp only [hwait]
  rw [advance_run_end hframes hbind]

end

/-! ## The definition -/

/-- The session with one more word, and with the reply to the line that defines it. -/
def withWord (s : Session) (name : String) (body : Body) : Session :=
  { (s.define name (.word (.compiled body))).print " ok" with
    returnDepth := s.machine.returns.length }

theorem dispatchDefining_of_ne {name : String} {gathered : List Action} {a : Action}
    (h : a ≠ .control .semicolon) :
    dispatchDefining name gathered a = gather (.definition name (gathered ++ [a])) := by
  unfold dispatchDefining
  split
  · exact absurd rfl h
  · rfl

/-- The actions of a body are gathered, and compiled at the semicolon. -/
theorem leads_definition {s : Session} {l : List Char} {ts : List Token} {name : String}
    {gathered actions : List Action} {body : Body} (hwait : s.machine.wait = none)
    (hframes : s.frames = []) (hgathering : s.gathering = .definition name gathered)
    (hline : s.line = some l) (hts : tokens l = ts ++ [.word ";"])
    (hsemicolon : s.dictionary.find? ";" = some (.control .semicolon))
    (hactions : Resolve s.dictionary ts actions)
    (hplain : ∀ a ∈ actions, a ≠ .control .semicolon)
    (hcompile : compile (gathered ++ actions) = .ok body) :
    ∃ rest, tokens rest = [] ∧ Leads tick s
      ({ s with line := some rest, gathering := .nothing }.define name (.word (.compiled body))) := by
  -- By induction over the tokens that are left: each of them is gathered, and the semicolon
  -- compiles what was gathered before.
  induction ts generalizing s l gathered actions with
  | nil =>
    obtain rfl := hactions.nil
    obtain ⟨rest, hrest, htick⟩ := tick_of_token hwait hframes hline hts
      (Token.resolve_control hsemicolon)
    refine ⟨rest, hrest, .one ?_⟩
    rw [List.append_nil] at hcompile
    rw [htick]
    simp only [dispatch, EStateM.run_bind, EStateM.run_get, hgathering, dispatchDefining, gather,
      EStateM.run_modify, hcompile]
  | cons t ts ih =>
    obtain ⟨a, actions, rfl, ha, hrestActions⟩ := hactions.cons
    obtain ⟨rest, hrest, htick⟩ := tick_of_token hwait hframes hline hts ha
    have hmore : s.tick = .more
        { s with line := some rest, gathering := .definition name (gathered ++ [a]) } := by
      rw [htick]
      simp only [dispatch, EStateM.run_bind, EStateM.run_get, hgathering,
        dispatchDefining_of_ne (hplain a (.head _)), gather, EStateM.run_modify]
    rw [List.append_cons] at hcompile
    obtain ⟨last, hlast, hleads⟩ := ih (s := { s with
      line := some rest, gathering := .definition name (gathered ++ [a]) }) hwait hframes rfl rfl
      hrest hsemicolon hrestActions (fun b hb => hplain b (.tail _ hb)) hcompile
    exact ⟨last, hlast, .more hmore hleads⟩

/-- Nothing is in progress, and nothing is being gathered. -/
structure Idle (s : Session) : Prop where
  line : s.line = none
  wait : s.machine.wait = none
  frames : s.frames = []
  gathering : s.gathering = .nothing

/-- A line that defines a word ends well and adds the word to the dictionary. -/
theorem ends_definition {s : Session} {text name : String} {ts : List Token}
    {actions : List Action} {body : Body} (hs : s.Idle)
    (hcolon : s.dictionary.find? ":" = some (.control .colon))
    (hsemicolon : s.dictionary.find? ";" = some (.control .semicolon))
    (htext : tokens text.toList = .word ":" :: .word name :: ts ++ [.word ";"])
    (hactions : Resolve s.dictionary ts actions) (hcompile : compile actions = .ok body) :
    Ends tick (s.startLine text) (.ok .ok, s.withWord name body) := by
  -- The first step takes both the colon and the name off the line, so the tokens of the body are
  -- next.
  obtain ⟨l, hl, hfirst⟩ := tick_of_token (s := s.startLine text) hs.wait hs.frames rfl htext
    (Token.resolve_control hcolon)
  obtain ⟨l', hnext, hl'⟩ := Token.next?_of_tokens_cons hl
  have hopen : (s.startLine text).tick = .more { s.startLine text with
      line := some l', gathering := .definition name [] } := by
    rw [hfirst]
    simp only [dispatch, EStateM.run_bind, EStateM.run_get, startLine, hs.gathering,
      dispatchDirect, takeName, takeToken_run, Option.bind_some, hnext, EStateM.run_pure, gather,
      EStateM.run_modify]
  obtain ⟨rest, hrest, hleads⟩ := leads_definition (s := { s.startLine text with
    line := some l', gathering := .definition name [] }) hs.wait hs.frames rfl rfl hl' hsemicolon
    hactions (Construction.ne_semicolon_of_compileRest hcompile) hcompile
  let last := ({ s.startLine text with line := some rest, gathering := .nothing } : Session).define
    name (.word (.compiled body))
  have hend : last.tick = .done last.finishLine := tick_of_end hs.wait hs.frames rfl hrest
  have hfinish : last.finishLine = (.ok .ok, s.withWord name body) := by
    simp only [last, finishLine, define, startLine, withWord, Session.print, onMachine, hs.line,
      hs.gathering]
  exact .more hopen (hleads.ends_iff.2 (.done (hend.trans (congrArg _ hfinish))))

end Session

end Forth
