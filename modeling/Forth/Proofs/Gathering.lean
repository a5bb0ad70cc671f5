import Forth.Proofs.BalancedBodies
import Forth.Proofs.Onward

/-!
# Gathering is all or nothing

While the body of a definition or a control structure is gathered, no token has an effect.
`Gathers` follows the gathering from its first token on, over any number of tokens and, inside of a
definition, of lines.  The host may do anything to the machine and the dictionary meanwhile, so
`Gathers` also keeps the machine and the dictionary that there would be if the host had done the
same without any gathering, and the machine and the dictionary of the session stay equal to them
(`Gathers.withheld`).

Gathering ends when the definition enters the dictionary, or the control structure is about to run,
or with an error.  An error leaves nothing of it: the line is abandoned from a session in which
nothing had happened yet (`refused_of_gathering`).
-/

namespace Forth

/-- A token that stands for nothing is a word that is not known. -/
theorem Token.eq_missingWord_of_resolve {token : Token} {d : Dictionary} {e : Error}
    (h : token.resolve d = .error e) : ∃ name, e = .missingWord name := by
  cases token with
  | string text => cases h
  | word name =>
    rw [resolve] at h
    cases hfind : d.find? name with
    | some meaning =>
      rw [hfind] at h
      cases meaning <;> cases h
    | none =>
      rw [hfind] at h
      cases hnumeral : Numeral.parse? name with
      | some n => simp [hnumeral] at h
      | none =>
        simp only [hnumeral, Except.error.injEq] at h
        exact ⟨name, h.symm⟩

namespace Session

variable {s t u : Session} {m : Machine} {d : Dictionary} {depth : Nat}

/-! ## One step -/

/-- What a step can come to while actions are gathered. -/
inductive Gathered (t : Session) : Session → Prop
  | onward {line : Option (List Char)} {g : Gathering} (hg : g ≠ .nothing)
    (hname : ∀ name actions, g = .definition name actions →
      ∃ before, t.gathering = .definition name before) :
    Gathered t { t with line, gathering := g }
  | defined {line : Option (List Char)} {name : String} {actions : List Action} {body : Body}
    (hg : t.gathering = .definition name actions) (hbody : compile actions = .ok body) :
    Gathered t { t with
      line, gathering := .nothing, dictionary := t.dictionary.add name (.word (.compiled body)) }
  | closed {line : Option (List Char)} {actions : List Action} {count : Nat} {body : Body}
    (hg : t.gathering = .block actions count) :
    Gathered t { t with line, gathering := .nothing, frames := [.block body] }

theorem Dispatched.gathered_of_ok {a : Action} (h : Dispatched t a (.ok () u))
    (hframes : t.frames = []) (hg : t.gathering ≠ .nothing) : Gathered t u := by
  cases h with
  | @gathered name actions _ hdefinition _ =>
    exact .onward nofun fun name' _ h => ⟨actions, by
      obtain ⟨rfl, -⟩ := Gathering.definition.inj h
      exact hdefinition⟩
  | nested _ _ => exact .onward nofun nofun
  | defined hdefinition hbody => exact .defined hdefinition hbody
  | closed hblock _ _ =>
    rw [hframes]
    exact .closed hblock
  | performed h _ | opened h _ | colon h _ | «variable» h _ | constant h _ _ => exact absurd h hg

/-- A step while actions are gathered touches nothing but what is gathered, unless it ends that. -/
theorem gathered_of_tick (hframes : t.frames = []) (hg : t.gathering ≠ .nothing)
    (htick : t.tick = .more u) : Gathered t u := by
  cases (advanced_of_tick htick).2 with
  | frame hcons _ => exact nomatch hframes.symm.trans hcons
  | @dispatched _ rest _ _ _ _ _ h =>
    cases h.gathered_of_ok hframes hg with
    | onward hg hname => exact .onward hg hname
    | defined hg hbody => exact .defined hg hbody
    | closed hg => exact .closed hg

/-! ## Failures without effect -/

/-- Why the gathering of actions can fail: a token is not known, the actions do not compile, or a
control structure is open at the end of the line. -/
def FailsGathering (e : Error) : Prop :=
  (∃ name, e = .missingWord name) ∨ e = .unbalancedControl ∨
    ∃ c : Control, e = .interpretOnly c.name

/-- A line has failed from this machine and this dictionary, and it has done nothing else to them:
the return stack is cut back to a depth, and the message is printed. -/
structure Refused (m : Machine) (d : Dictionary) (depth : Nat) (e : Error) (u : Session) :
    Prop where
  machine : u.machine = { m with
    wait := none
    returns := m.returns.truncate depth
    output := m.output.print (" " ++ e.message) }
  dictionary : u.dictionary = d
  frames : u.frames = []
  line : u.line = none
  gathering : u.gathering = .nothing

theorem refused_abandon (e : Error) :
    Refused t.machine t.dictionary t.returnDepth e (t.abandon e).2 :=
  ⟨rfl, rfl, rfl, rfl, rfl⟩

/-- A line that fails while actions are gathered is abandoned as it is. -/
theorem refused_of_gathering {e : Error} (hframes : t.frames = []) (hg : t.gathering ≠ .nothing)
    (htick : t.tick = .done (.error e, u)) :
    FailsGathering e ∧ Refused t.machine t.dictionary t.returnDepth e u := by
  cases stopped_of_tick htick with
  | unclosed _ _ _ => exact ⟨.inr (.inl rfl), refused_abandon _⟩
  | failed _ h =>
    cases h with
    | frameFailed hcons _ => exact nomatch hframes.symm.trans hcons
    | unknown _ _ htoken =>
      exact ⟨.inl (Token.eq_missingWord_of_resolve htoken), refused_abandon _⟩
    | refused _ _ _ h =>
      cases h with
      | undefined _ he | unbalanced _ _ he =>
        exact ⟨.inr (error_of_compile he), refused_abandon _⟩
      | failed h _ | misplaced h _ _ | valueless h _ _ | nameless h _ _ | misnamed h _ _ =>
        exact absurd h hg

/-- So is a line that fails at a defining word. -/
theorem refused_of_definer {token : Token} {rest : List Char} {c : Control} {e : Error}
    (hframes : t.frames = []) (hg : t.gathering = .nothing)
    (hnext : t.line.bind Token.next? = some (token, rest))
    (htoken : token.resolve t.dictionary = .ok (.control c))
    (hc : c = .colon ∨ c = .variable ∨ c = .constant) (htick : t.tick = .done (.error e, u)) :
    (e = .expectingName ∨ c = .constant ∧ t.machine.data = [] ∧ e = .stackUnderflow) ∧
      Refused t.machine t.dictionary t.returnDepth e u := by
  -- The line goes on and the word is a defining one, which leaves two ways to fail: no name
  -- follows, or there is no value for a constant.
  cases stopped_of_tick htick with
  | unclosed _ _ hblock => exact nomatch hg.symm.trans hblock
  | failed _ h =>
    cases h with
    | frameFailed hcons _ => exact nomatch hframes.symm.trans hcons
    | unknown _ hnext' herror =>
      obtain ⟨rfl, -⟩ := Prod.mk.inj (Option.some.inj (hnext.symm.trans hnext'))
      exact nomatch htoken.symm.trans herror
    | refused _ hnext' haction h =>
      obtain ⟨rfl, rfl⟩ := Prod.mk.inj (Option.some.inj (hnext.symm.trans hnext'))
      obtain rfl := Except.ok.inj (htoken.symm.trans haction)
      cases h with
      | undefined hdefinition _ => exact nomatch hg.symm.trans hdefinition
      | unbalanced hblock _ _ => exact nomatch hg.symm.trans hblock
      | misplaced _ _ hother =>
        obtain ⟨hcolon, hvariable, hconstant⟩ := hother
        obtain h | h | h := hc
        · exact absurd h hcolon
        · exact absurd h hvariable
        · exact absurd h hconstant
      | valueless _ _ hdata => exact ⟨.inr ⟨rfl, hdata, rfl⟩, refused_abandon _⟩
      | nameless _ _ _ | misnamed _ _ _ => exact ⟨.inl rfl, refused_abandon _⟩

/-! ## Over any number of tokens and lines -/

/-- The next two tokens are a word that opens a definition and the name of that definition. -/
def OpensDefinition (s : Session) (name : String) : Prop :=
  ∃ token rest rest', s.line.bind Token.next? = some (token, rest) ∧
    token.resolve s.dictionary = .ok (.control .colon) ∧
    Token.next? rest = some (.word name, rest')

/-- The next token of the first session has begun to gather actions, and this has led to the last
session without an end.  The machine and the dictionary are those of the first session, with all
that the host has done to them since; the depth is that of the return stack at the start of the
line. -/
inductive Gathers (s : Session) : Machine → Dictionary → Nat → Session → Prop
  | begins {depth : Nat} {t : Session} (hs : InLine depth s) (hg : s.gathering = .nothing)
    (htick : s.tick = .more t) (ht : t.gathering ≠ .nothing) :
    Gathers s s.machine s.dictionary depth t
  | token {m : Machine} {d : Dictionary} {depth : Nat} {t u : Session} (h : Gathers s m d depth t)
    (htick : t.tick = .more u) (hu : u.gathering ≠ .nothing) : Gathers s m d depth u
  | endLine {m : Machine} {d : Dictionary} {depth : Nat} {t u : Session} (h : Gathers s m d depth t)
    (htick : t.tick = .done (.ok .defining, u)) : Gathers s m d depth u
  | startLine {m : Machine} {d : Dictionary} {depth : Nat} {t : Session} (h : Gathers s m d depth t)
    (hline : t.line = none) (text : String) :
    Gathers s m d t.machine.returns.length (t.startLine text)
  /-- The host changes the machine and the dictionary. -/
  | between {m : Machine} {d : Dictionary} {depth : Nat} {t : Session} (h : Gathers s m d depth t)
    (f : Machine → Machine) (g : Dictionary → Dictionary) :
    Gathers s (f m) (g d) depth { t with machine := f t.machine, dictionary := g t.dictionary }

/-- What gathering leaves as it is. -/
structure Withheld (s : Session) (m : Machine) (d : Dictionary) (depth : Nat) (t : Session) :
    Prop where
  machine : t.machine = m
  dictionary : t.dictionary = d
  frames : t.frames = []
  gathering : t.gathering ≠ .nothing
  returnDepth : t.returnDepth = depth
  name : ∀ name actions, t.gathering = .definition name actions → s.OpensDefinition name

/-- The token that begins to gather actions has no other effect. -/
theorem withheld_of_begin (hg : s.gathering = .nothing) (htick : s.tick = .more t)
    (ht : t.gathering ≠ .nothing) : Withheld s s.machine s.dictionary s.returnDepth t := by
  cases (advanced_of_tick htick).2 with
  | frame _ _ => exact absurd hg ht
  | dispatched hframes hnext htoken h =>
    cases h with
    | opened _ _ => exact ⟨rfl, rfl, hframes, ht, rfl, nofun⟩
    | @colon name rest' _ hname =>
      refine ⟨rfl, rfl, hframes, ht, rfl, fun name' actions h => ?_⟩
      obtain ⟨rfl, -⟩ := Gathering.definition.inj h
      exact ⟨_, _, rest', hnext, htoken, hname⟩
    | gathered h _ => exact nomatch hg.symm.trans h
    | nested h _ => exact nomatch hg.symm.trans h
    | defined _ _ | closed _ _ _ => exact absurd rfl ht
    | performed h _ | «variable» h _ | constant h _ _ => exact absurd h ht

theorem Gathers.withheld (h : Gathers s m d depth t) : Withheld s m d depth t := by
  induction h with
  | begins hs hg htick ht => exact hs.returnDepth ▸ withheld_of_begin hg htick ht
  | token _ htick hu ih =>
    cases gathered_of_tick ih.frames ih.gathering htick with
    | onward hg hname =>
      refine ⟨ih.machine, ih.dictionary, ih.frames, hg, ih.returnDepth, fun name actions h => ?_⟩
      obtain ⟨before, hbefore⟩ := hname name actions h
      exact ih.name name before hbefore
    | defined _ _ | closed _ => exact absurd rfl hu
  | endLine _ htick ih =>
    cases stopped_of_tick htick with
    | defining _ _ _ =>
      exact ⟨ih.machine, ih.dictionary, ih.frames, ih.gathering, ih.returnDepth, ih.name⟩
  | startLine _ _ _ ih => exact ⟨ih.machine, ih.dictionary, ih.frames, ih.gathering, rfl, ih.name⟩
  | between _ f g ih =>
    exact ⟨congrArg f ih.machine, congrArg g ih.dictionary, ih.frames, ih.gathering,
      ih.returnDepth, ih.name⟩

/-- A line that ends without an error, or that has to wait, leaves what is being gathered. -/
theorem Gathers.stop {status : Status} (h : Gathers s m d depth t)
    (htick : t.tick = .done (.ok status, u)) : Gathers s m d depth u := by
  cases stopped_of_tick htick with
  | waiting _ => exact h
  | finished _ _ hg => exact absurd hg h.withheld.gathering
  | defining _ _ _ => exact h.endLine htick

/-- Whatever is being gathered, some token has begun that. -/
theorem Onward.gathers {word : Primitive → Prop} {change : Session → Machine → Prop}
    (h : Onward word change s t) (hs : s.Unloaded) (hline : s.line = none)
    (hg : s.gathering = .nothing) (ht : t.gathering ≠ .nothing) :
    ∃ first m d depth, Gathers first m d depth t := by
  induction h with
  | here => exact absurd hg ht
  | @addPrimitive t _ name p _ ih =>
    obtain ⟨first, m, d, depth, h⟩ := ih ht
    exact ⟨first, _, _, _, h.between id fun d => d.add name (.word (.primitive p))⟩
  | @addConstant t _ name n ih =>
    obtain ⟨first, m, d, depth, h⟩ := ih ht
    exact ⟨first, _, _, _, h.between id fun d => d.add name (.word (.value n))⟩
  | @adjust t _ m' _ ih =>
    obtain ⟨first, m, d, depth, h⟩ := ih ht
    exact ⟨first, _, _, _, h.between (fun _ => m') id⟩
  | startLine _ hnone text ih =>
    obtain ⟨first, m, d, depth, h⟩ := ih ht
    exact ⟨first, _, _, _, h.startLine hnone text⟩
  | @step t u honward htick ih =>
    -- A token that finds nothing gathered has begun it, and any other token belongs to what was
    -- gathered before.
    by_cases hbefore : t.gathering = .nothing
    · have hadvanced := (advanced_of_tick htick).2
      have hbusy := (honward.unloaded hs).line_of_advanced hadvanced nofun
      obtain ⟨depth, hin⟩ := honward.inLine hs hline hbusy
      exact ⟨t, _, _, depth, .begins hin hbefore htick ht⟩
    · obtain ⟨first, m, d, depth, h⟩ := ih hbefore
      exact ⟨first, m, d, depth, h.token htick ht⟩
  | stop _ htick ih =>
    cases stopped_of_tick htick with
    | waiting _ => exact ih ht
    | finished _ _ hnothing => exact absurd hnothing ht
    | defining _ _ _ =>
      obtain ⟨first, m, d, depth, h⟩ := ih ht
      exact ⟨first, m, d, depth, h.endLine htick⟩
    -- A line that fails leaves nothing gathered.
    | unclosed _ _ _ | failed _ _ => exact absurd rfl ht

/-! ## The statement -/

theorem startLine_machine (s : Session) (text : String) :
    (s.startLine text).machine = s.machine := rfl

theorem startLine_dictionary (s : Session) (text : String) :
    (s.startLine text).dictionary = s.dictionary := rfl

theorem startLine_gathering (s : Session) (text : String) :
    (s.startLine text).gathering = s.gathering := rfl

theorem unoccupied_withPrimitives (random : Nat → UInt64) :
    (withPrimitives random).gathering = .nothing :=
  withPrimitives_invariant (I := fun s => s.gathering = .nothing) random rfl fun _ _ _ hs => hs

/-- **Gathering is free of effects, and it is all or nothing.**  Whatever a host calls, from a new
session on, and wherever a line stands: if actions are being gathered, then some token has begun
that.  Since then, over any number of tokens and lines, the machine and the dictionary are what they
were, but for what the host has done to them, and no frame is scheduled; the actions stay when the
line ends or has to wait.  If gathering ends with an error, then only the message is printed, the
return stack is only cut back to its depth at the start of the line, and neither the actions nor the
rest of the line are left.  If it ends otherwise, the machine is still the same, and either the
dictionary has one more entry, for the name that follows the opening word, or the control structure
is what runs next.  A defining word that fails changes nothing either. -/
theorem gathering_is_all_or_nothing :
    (∀ random t, Occurs (fun _ => True) Freely random t → t.gathering ≠ .nothing →
      ∃ s m d depth, Gathers s m d depth t) ∧
    (∀ s m d depth t, Gathers s m d depth t →
      (t.machine = m ∧ t.dictionary = d ∧ t.frames = []) ∧
      (∀ status u, t.tick = .done (.ok status, u) → Gathers s m d depth u) ∧
      (∀ e u, t.tick = .done (.error e, u) → FailsGathering e ∧ Refused m d depth e u) ∧
      ∀ u, t.tick = .more u → u.gathering = .nothing → u.machine = m ∧
        ((∃ name actions body, t.gathering = .definition name actions ∧ s.OpensDefinition name ∧
            compile actions = .ok body ∧ u.frames = [] ∧
            u.dictionary = (Text.lowerCase name, .word (.compiled body)) :: d) ∨
          ∃ actions count body, t.gathering = .block actions count ∧ u.frames = [.block body] ∧
            u.dictionary = d)) ∧
    ∀ depth s, InLine depth s → s.frames = [] → s.gathering = .nothing →
      ∀ token rest c, s.line.bind Token.next? = some (token, rest) →
        token.resolve s.dictionary = .ok (.control c) →
        (c = .colon ∨ c = .variable ∨ c = .constant) → ∀ e u, s.tick = .done (.error e, u) →
          (e = .expectingName ∨ c = .constant ∧ s.machine.data = [] ∧ e = .stackUnderflow) ∧
            Refused s.machine s.dictionary depth e u := by
  -- First where gathering comes from, then what it leaves at the end of a line, at an error and
  -- when it is complete, and last the defining words, which gather nothing.
  refine ⟨fun random t h ht => ?_, fun s m d depth t h => ?_, fun depth s hs hframes hg token rest
    c hnext htoken hc e u htick => ?_⟩
  · have honward := h.onward respectsReturns_freely
    exact honward.gathers (unloaded_withPrimitives random) (line_withPrimitives random)
      (unoccupied_withPrimitives random) ht
  · have ht := h.withheld
    refine ⟨⟨ht.machine, ht.dictionary, ht.frames⟩, fun status u htick => h.stop htick,
      fun e u htick => ?_, fun u htick hu => ?_⟩
    · have hrefused := refused_of_gathering ht.frames ht.gathering htick
      rwa [ht.machine, ht.dictionary, ht.returnDepth] at hrefused
    · cases gathered_of_tick ht.frames ht.gathering htick with
      | onward hg _ => exact absurd hu hg
      | @defined _ name actions body hg hbody =>
        refine ⟨ht.machine, .inl ⟨name, actions, body, hg, ht.name name actions hg, hbody,
          ht.frames, ?_⟩⟩
        rw [← ht.dictionary]
        rfl
      | @closed _ actions count body hg =>
        exact ⟨ht.machine, .inr ⟨actions, count, body, hg, rfl, ht.dictionary⟩⟩
  · rw [← hs.returnDepth]
    exact refused_of_definer hframes hg hnext htoken hc htick

/-- The definition of a word goes on over two lines, and it fails or ends in the second one. -/
theorem gathering_is_all_or_nothing_twice :
    ∃ s t : Session, (∃ first m d depth, Gathers first m d depth s) ∧
      s.tick = .done (.ok .defining, t) ∧
      (∃ u, (t.startLine "nowhere").tick = .done (.error (.missingWord "nowhere"), u) ∧
        u.dictionary = (withPrimitives fun _ => 0).dictionary ∧
        u.machine.output.console = " nowhere ?") ∧
      (∃ u, (t.startLine ";").tick = .more u ∧ u.machine = (withPrimitives fun _ => 0).machine ∧
        u.dictionary.head?.map Prod.fst = some "twice") ∧
      ∃ u, ((withPrimitives fun _ => 0).startLine "variable").tick =
          .done (.error .expectingName, u) ∧
        u.dictionary = (withPrimitives fun _ => 0).dictionary := by
  obtain ⟨hoccurs, hgathers, hdefiners⟩ := gathering_is_all_or_nothing
  obtain ⟨r, s, t, u, v, w, hcolon, hfirst, hdup, hsecond, hend, hline, hopen, hfail, hclose,
      hclosed, hnameless⟩ :
      ∃ r s t u v w : Session,
        ((withPrimitives fun _ => 0).startLine ": Twice dup").tick = .more r ∧
        r.gathering ≠ .nothing ∧ r.tick = .more s ∧ s.gathering ≠ .nothing ∧
        s.tick = .done (.ok .defining, t) ∧ t.line = none ∧
        (∃ actions, t.gathering = .definition "Twice" actions) ∧
        (t.startLine "nowhere").tick = .done (.error (.missingWord "nowhere"), u) ∧
        (t.startLine ";").tick = .more v ∧ v.gathering = .nothing ∧
        ((withPrimitives fun _ => 0).startLine "variable").tick =
          .done (.error .expectingName, w) :=
    ⟨_, _, _, _, _, _, rfl, nofun, rfl, nofun, rfl, rfl, ⟨_, rfl⟩, rfl, rfl, rfl, rfl⟩
  have hnothing (text : String) :
      ((withPrimitives fun _ => 0).startLine text).gathering = .nothing :=
    (startLine_gathering _ _).trans (unoccupied_withPrimitives _)
  have hbegun := Gathers.begins (.startLine _ _) (hnothing _) hcolon hfirst
  have ht := (hgathers _ _ _ _ _ (hbegun.token hdup hsecond)).2.1 _ _ hend
  rw [startLine_machine, startLine_dictionary] at ht
  refine ⟨s, t, ?_, hend, ⟨u, hfail, ?_⟩, ⟨v, hclose, ?_⟩, w, hnameless, ?_⟩
  · have hleads := (Leads.one hcolon).trans (.one hdup)
    exact hoccurs _ s (.submitted (.inl rfl) (.nil _) (line_withPrimitives _) _ hleads) hsecond
  · have hrefused := ((hgathers _ _ _ _ _ (ht.startLine hline "nowhere")).2.2.1 _ _ hfail).2
    refine ⟨hrefused.dictionary, ?_⟩
    rw [hrefused.machine]
    rfl
  · obtain ⟨actions, hactions⟩ := hopen
    obtain ⟨hsame, hdefined | hblock⟩ :=
      (hgathers _ _ _ _ _ (ht.startLine hline ";")).2.2.2 v hclose hclosed
    · obtain ⟨name, _, body, hg, -, -, -, hadded⟩ := hdefined
      obtain ⟨rfl, -⟩ := Gathering.definition.inj (hactions.symm.trans hg)
      rw [hadded]
      exact ⟨hsame, rfl⟩
    · obtain ⟨_, _, _, hg, -, -⟩ := hblock
      exact nomatch hactions.symm.trans hg
  · have hdefiner := hdefiners _ _ (.startLine _ _) rfl (hnothing _)
      (.word "variable") [] .variable rfl rfl (.inr (.inl rfl)) _ w hnameless
    exact hdefiner.2.dictionary.trans (startLine_dictionary _ _)

end Session

end Forth
