import ShiftReduce.Lexer.Tokens
import ShiftReduce.Proofs.Action
import ShiftReduce.Proofs.Lexer.Drain
import ShiftReduce.Proofs.Lexer.Uses

/-!
# The tokens of a text

What draining a stream delivers (`Drained`) tells the tokens of its text and the error that ends
them, a diagnostic being one (`Drained.tokens`, `Drained.fault?`). `Lexer.tokenize` returns the one
or ends in the other (`Lexer.run_tokenize`).

Tokens that are used as they are pulled are used as if they had all been there before: pulling works
on the state of the recognizers, using them on a state of its own, and neither sees the other
(`Stream.run_collectTokensWithin_of_ok`).

With recognizers that only look at their input, the tokens and the error are those of the one lexing
of the text (`Stream.exists_drain_lift`).
-/

namespace ShiftReduce

variable {τ ω t α β : Type}

namespace Drained

/-- The tokens delivered, in order. -/
def tokens (d : Drained τ) : List τ := d.items.filterMap fun entry => entry.1.token?.toOption

/-- The error that ended the stream: the first diagnostic, or what a recognizer did. -/
def fault? (d : Drained τ) : Option Error :=
  ((d.items.findSome? fun entry => entry.1.diagnostic?.toOption).map Error.lexical).or d.error?

/-- Ends with a value, unless the stream ended in an error. -/
def settle (d : Drained τ) (a : α) : Except Error α :=
  match d.fault? with
  | none => .ok a
  | some error => .error error

variable {d : Drained τ}

theorem settle_of_fault {error : Error} (h : d.fault? = some error) (a : α) :
    d.settle a = .error error := by
  rw [settle, h]

theorem settle_of_no_fault (h : d.fault? = none) (a : α) : d.settle a = .ok a := by
  rw [settle, h]

theorem settle_eq_ok_iff {a b : α} : d.settle a = .ok b ↔ d.fault? = none ∧ a = b := by
  cases h : d.fault? with
  | none => simp [settle_of_no_fault h]
  | some error => simp [settle_of_fault h]

theorem settle_congr {rest : Drained τ} (h : d.fault? = rest.fault?) (a : α) :
    d.settle a = rest.settle a := by
  rw [settle, settle, h]

theorem map_settle (f : α → β) (a : α) : (d.settle a).map f = d.settle (f a) := by
  cases h : d.fault? with
  | none => rw [settle_of_no_fault h, settle_of_no_fault h, Except.map]
  | some error => rw [settle_of_fault h, settle_of_fault h, Except.map]

end Drained

namespace Stream

/-! ## Pulls and drains -/

section Drain

variable {lexer : Lexer (Action (Scene Bool ω)) τ} {s : Stream} {scene : Scene Bool ω}

/-- While the flag is down a pull skips what is ignored and settles on the first decision. -/
theorem run_next (hstreaming : s.isDone = false) (hdown : scene.subject = false) :
    let skipped := (skipIgnored lexer s.index s.remaining).run { scene with subject := true }
    (s.next lexer).run scene =
      (s.settle lexer.tabs skipped.1.1 skipped.1.2, { skipped.2 with subject := false }) := by
  rw [next, if_neg (by simp [hstreaming]), exclusively_of_lowered _ _ hdown]
  rfl

theorem isDone_of_settle {tabs : TabStops} {index : Nat} {decision : Except Error (Outcome τ)}
    {complaint : Diagnostic}
    (h : (s.settle tabs index decision).result = .ok (some (.diagnostic complaint))) :
    (s.settle tabs index decision).stream.isDone = true := by
  rcases decision with error | _ | _ | message
  · cases h
  · simp only [settle] at h
    split at h <;> cases h
  · cases h
  · rfl

/-- A diagnostic is the last item. -/
theorem isDone_of_diagnostic {complaint : Diagnostic}
    (h : ((s.next lexer).run scene).1.result = .ok (some (.diagnostic complaint))) :
    ((s.next lexer).run scene).1.stream.isDone = true := by
  cases hdone : s.isDone with
  | true =>
    rw [next_of_isDone hdone] at h
    cases h
  | false =>
    cases hflag : scene.subject with
    | true =>
      rw [next, if_neg (by simp [hdone]), exclusively_of_raised _ _ hflag] at h
      cases h
    | false =>
      rw [run_next hdone hflag] at h ⊢
      exact isDone_of_settle h

theorem drainWithin_of_error {n : Nat} {error : Error} {stream : Stream} {after : Scene Bool ω}
    (hpull : (s.next lexer).run scene = ({ result := .error error, stream }, after)) :
    (drainWithin lexer (n + 1) s).run scene =
      ({ items := [], error? := some error, stream }, after) := by
  rw [drainWithin, StateT.run_bind, hpull]
  rfl

end Drain

/-- What draining comes to, by what the next token is: an error ends it, so does the end of the
text, and a token goes in front of what the rest of the stream delivers. -/
inductive DrainStep (lexer : Lexer (Action (Scene Bool ω)) τ) (n : Nat) (s : Stream)
    (scene : Scene Bool ω) : Prop where
  | fault {error : Error} {d : Drained τ} {after : Scene Bool ω}
      (hnext : (s.nextToken lexer).run scene = (.error error, after))
      (hdrain : (drainWithin lexer (n + 1) s).run scene = (d, after))
      (htokens : d.tokens = []) (hfault : d.fault? = some error)
  | nothing {d : Drained τ} {after : Scene Bool ω}
      (hnext : (s.nextToken lexer).run scene = (.ok none, after))
      (hdrain : (drainWithin lexer (n + 1) s).run scene = (d, after))
      (htokens : d.tokens = []) (hfault : d.fault? = none)
  | token {token : τ} {stream : Stream} {d rest : Drained τ} {between after : Scene Bool ω}
      (hnext : (s.nextToken lexer).run scene = (.ok (some (token, stream)), between))
      (hrest : (drainWithin lexer n stream).run between = (rest, after))
      (hdrain : (drainWithin lexer (n + 1) s).run scene = (d, after))
      (htokens : d.tokens = token :: rest.tokens) (hfault : d.fault? = rest.fault?)

theorem drainStep (lexer : Lexer (Action (Scene Bool ω)) τ) (n : Nat) (s : Stream)
    (scene : Scene Bool ω) : DrainStep lexer n s scene := by
  rcases hpull : (s.next lexer).run scene with ⟨⟨result, stream⟩, between⟩
  have hnext : (s.nextToken lexer).run scene = _ := Action.run_bind_of_ok (Action.run_lift hpull)
  rcases result with error | _ | token | complaint
  · exact .fault hnext (drainWithin_of_error hpull) rfl rfl
  · exact .nothing hnext (drainWithin_of_nothing n hpull) rfl rfl
  · rcases hrest : (drainWithin lexer n stream).run between with ⟨rest, after⟩
    exact .token hnext hrest (drainWithin_of_item hpull hrest) rfl rfl
  · have hresult : ((s.next lexer).run scene).1.result = .ok (some (.diagnostic complaint)) := by
      rw [hpull]
    have hdone := isDone_of_diagnostic hresult
    rw [hpull] at hdone
    exact .fault hnext (drainWithin_of_item hpull (drainWithin_of_isDone n hdone)) rfl rfl

/-! ## Using the tokens -/

/-- Uses tokens that are all there, one after the other, and joins what they yield. -/
def useAll (use : τ → Action t (List β)) : List τ → Action t (List β)
  | [] => pure []
  | token :: tokens => do
    let here ← use token
    let later ← useAll use tokens
    pure (here ++ later)

section Collect

variable {pull : Stream → Action t (Option (τ × Stream))} {use : τ → Action t (List β)} {n : Nat}
  {s stream : Stream} {state between after : t}

theorem collectTokensWithin_of_error {error : Error}
    (h : (pull s).run state = (.error error, after)) :
    (collectTokensWithin pull use (n + 1) s).run state = (.error error, after) := by
  rw [collectTokensWithin, Action.run_bind_of_error h]

theorem collectTokensWithin_of_nothing (h : (pull s).run state = (.ok none, after)) :
    (collectTokensWithin pull use (n + 1) s).run state = (.ok [], after) := by
  rw [collectTokensWithin, Action.run_bind_of_ok h]
  rfl

theorem collectTokensWithin_of_token {token : τ}
    (h : (pull s).run state = (.ok (some (token, stream)), between)) :
    (collectTokensWithin pull use (n + 1) s).run state =
      (use token >>= fun here => collectTokensWithin pull use n stream >>= fun later =>
        pure (here ++ later)).run between := by
  rw [collectTokensWithin, Action.run_bind_of_ok h]

end Collect

variable {lexer : Lexer (Action (Scene Bool ω)) τ}

/-- Collecting the tokens themselves is draining the stream. -/
theorem run_collectTokensWithin_nextToken {n : Nat} {s : Stream} {scene after : Scene Bool ω}
    {d : Drained τ} (hdrain : (drainWithin lexer n s).run scene = (d, after)) :
    (collectTokensWithin (nextToken lexer) (fun token => pure [token]) n s).run scene =
      (d.settle d.tokens, after) := by
  induction n generalizing s scene d with
  | zero =>
    cases hdrain
    rfl
  | succ n ih =>
    cases drainStep lexer n s scene with
    | fault hnext hstep htokens hfault =>
      obtain ⟨rfl, rfl⟩ := Prod.mk.inj (hdrain.symm.trans hstep)
      rw [collectTokensWithin_of_error hnext, Drained.settle_of_fault hfault]
    | nothing hnext hstep htokens hfault =>
      obtain ⟨rfl, rfl⟩ := Prod.mk.inj (hdrain.symm.trans hstep)
      rw [collectTokensWithin_of_nothing hnext, Drained.settle_of_no_fault hfault, htokens]
    | token hnext hrest hstep htokens hfault =>
      obtain ⟨rfl, rfl⟩ := Prod.mk.inj (hdrain.symm.trans hstep)
      rw [collectTokensWithin_of_token hnext, pure_bind, Action.run_bind_pure, ih hrest,
        Drained.map_settle, Drained.settle_congr hfault, htokens]
      rfl

variable {use : τ → Action t (List β)} {n : Nat} {s : Stream} {scene after : Scene Bool ω}
  {d : Drained τ} {state left : t}

/-- Collecting from two states side by side: the stream is drained in the one, and its tokens are
used in the other. -/
theorem run_collectTokensWithin_of_ok {results : List β}
    (hdrain : (drainWithin lexer n s).run scene = (d, after))
    (huse : (useAll use d.tokens).run state = (.ok results, left)) :
    (collectTokensWithin (fun stream => Action.onFirst (stream.nextToken lexer))
      (fun token => Action.onSecond (use token)) n s).run (scene, state) =
        (d.settle results, (after, left)) := by
  induction n generalizing s scene d state results with
  | zero =>
    cases hdrain
    cases huse
    rfl
  | succ n ih =>
    cases drainStep lexer n s scene with
    | fault hnext hstep htokens hfault =>
      obtain ⟨rfl, rfl⟩ := Prod.mk.inj (hdrain.symm.trans hstep)
      rw [htokens] at huse
      cases huse
      rw [collectTokensWithin_of_error (Action.run_onFirst hnext _),
        Drained.settle_of_fault hfault]
    | nothing hnext hstep htokens hfault =>
      obtain ⟨rfl, rfl⟩ := Prod.mk.inj (hdrain.symm.trans hstep)
      rw [htokens] at huse
      cases huse
      rw [collectTokensWithin_of_nothing (Action.run_onFirst hnext _),
        Drained.settle_of_no_fault hfault]
    | token hnext hrest hstep htokens hfault =>
      obtain ⟨rfl, rfl⟩ := Prod.mk.inj (hdrain.symm.trans hstep)
      rw [htokens] at huse
      obtain ⟨here, used, hhere, huse⟩ := Action.exists_of_run_bind huse
      obtain ⟨later, used', hlater, huse⟩ := Action.exists_of_run_bind huse
      cases huse
      rw [collectTokensWithin_of_token (Action.run_onFirst hnext _),
        Action.run_bind_of_ok (Action.run_onSecond hhere _), Action.run_bind_pure,
        ih hrest hlater, Drained.map_settle, Drained.settle_congr hfault]

/-- If pulling leaves the scene as it is, an error of the use ends it all, and what the stream would
have ended in is not met. -/
theorem run_collectTokensWithin_of_error {error : Error}
    (hsteady : ∀ s : Stream, ((s.nextToken lexer).run scene).2 = scene)
    (hdrain : (drainWithin lexer n s).run scene = (d, after))
    (huse : (useAll use d.tokens).run state = (.error error, left)) :
    (collectTokensWithin (fun stream => Action.onFirst (stream.nextToken lexer))
      (fun token => Action.onSecond (use token)) n s).run (scene, state) =
        (.error error, (scene, left)) := by
  induction n generalizing s d state with
  | zero =>
    cases hdrain
    cases huse
  | succ n ih =>
    cases drainStep lexer n s scene with
    | fault hnext hstep htokens hfault =>
      obtain ⟨rfl, rfl⟩ := Prod.mk.inj (hdrain.symm.trans hstep)
      rw [htokens] at huse
      cases huse
    | nothing hnext hstep htokens hfault =>
      obtain ⟨rfl, rfl⟩ := Prod.mk.inj (hdrain.symm.trans hstep)
      rw [htokens] at huse
      cases huse
    | @token token _ _ rest between _ hnext hrest hstep htokens hfault =>
      obtain ⟨rfl, rfl⟩ := Prod.mk.inj (hdrain.symm.trans hstep)
      obtain rfl : between = scene := by
        rw [← hsteady s, hnext]
      rw [htokens, useAll] at huse
      rw [collectTokensWithin_of_token (Action.run_onFirst hnext _)]
      rcases hhere : (use token).run state with ⟨error | here, used⟩
      · rw [Action.run_bind_of_error hhere] at huse
        cases huse
        rw [Action.run_bind_of_error (Action.run_onSecond hhere _)]
      · rw [Action.run_bind_of_ok hhere] at huse
        rw [Action.run_bind_of_ok (Action.run_onSecond hhere _)]
        rcases hlater : (useAll use rest.tokens).run used with ⟨error | later, left⟩
        · rw [Action.run_bind_of_error hlater] at huse
          cases huse
          rw [Action.run_bind_of_error (ih hrest hlater)]
        · rw [Action.run_bind_of_ok hlater] at huse
          cases huse

end Stream

/-- A text is tokenized by draining it: the result is its tokens, or the error that ended them. -/
theorem Lexer.run_tokenize {lexer : Lexer (Action (Scene Bool ω)) τ} {text : Bytes}
    {scene after : Scene Bool ω} {d : Drained τ}
    (hdrain : ((Stream.ofText text).drain lexer).run scene = (d, after)) :
    (lexer.tokenize text).run scene = (d.settle d.tokens, after) :=
  Stream.run_collectTokensWithin_nextToken hdrain

/-! ## Recognizers that only look at their input -/

namespace Lexing

variable {d : Drained τ} {lexing : Lexing τ} {last : Range} (h : d.items = lexing.items last)

include h

theorem tokens_of_items : d.tokens = lexing.tokens.map Prod.fst := by
  rw [Drained.tokens, h, items, List.filterMap_append, List.filterMap_map]
  cases lexing.complaint? <;> simp [Function.comp_def, Item.token?, Except.toOption]

theorem fault?_of_items (herror : d.error? = none) :
    d.fault? = lexing.complaint?.map .lexical := by
  have hnone : (lexing.tokens.map fun entry => (Item.token entry.1, entry.2)).findSome?
      (fun entry => entry.1.diagnostic?.toOption) = none := by
    apply List.findSome?_eq_none_iff.2
    intro item hmem
    obtain ⟨entry, -, rfl⟩ := List.mem_map.1 hmem
    rfl
  rw [Drained.fault?, h, herror, items, Option.or_none, List.findSome?_append, hnone,
    Option.none_or]
  cases lexing.complaint? <;> rfl

end Lexing

/-- The items of the lexing of a text are drained. -/
theorem Stream.exists_drain_items {lexer : Lexer Id τ} (hsuffixes : lexer.LeavesSuffixes)
    {scene : Scene Bool ω} (hdown : scene.subject = false) (text : Bytes) :
    ∃ (lexing : Lexing τ) (d : Drained τ), lexing.From lexer text 0 ∧
      ((ofText text).drain lexer.lift).run scene = (d, scene) ∧
      d.items = lexing.items {} ∧ d.error? = none := by
  obtain ⟨lexing, d, hlexing, hdrain, hitems, herror, -⟩ :=
    drainWithin_lift hsuffixes hdown _ (.ofText text) rfl rfl (Nat.zero_le _) (Nat.lt_succ_self _)
  exact ⟨lexing, d, hlexing, hdrain, hitems, herror⟩

/-- The tokens of the lexing of a text are drained, and then its complaint. -/
theorem Stream.exists_drain_lift {lexer : Lexer Id τ} (hsuffixes : lexer.LeavesSuffixes)
    {scene : Scene Bool ω} (hdown : scene.subject = false) (text : Bytes) :
    ∃ (lexing : Lexing τ) (d : Drained τ), lexing.From lexer text 0 ∧
      ((ofText text).drain lexer.lift).run scene = (d, scene) ∧
      d.tokens = lexing.tokens.map Prod.fst ∧ d.fault? = lexing.complaint?.map .lexical := by
  obtain ⟨lexing, d, hlexing, hdrain, hitems, herror⟩ := exists_drain_items hsuffixes hdown text
  exact ⟨lexing, d, hlexing, hdrain, Lexing.tokens_of_items hitems,
    Lexing.fault?_of_items hitems herror⟩

/-- Recognizers that only look at their input leave the scene as it is. -/
theorem Stream.nextToken_lift_scene (lexer : Lexer Id τ) {scene : Scene Bool ω}
    (hdown : scene.subject = false) (s : Stream) :
    ((s.nextToken lexer.lift).run scene).2 = scene := by
  have hnext : ((s.next lexer.lift).run scene).2 = scene := by
    cases hdone : s.isDone with
    | true => rw [next_of_isDone hdone]
    | false =>
      have hphase : s.phase = .streaming := by simpa [isDone] using hdone
      obtain ⟨k, decision, -, hpull⟩ := next_lift lexer hdown hphase
      rw [hpull]
  rcases hpull : (s.next lexer.lift).run scene with ⟨⟨result, stream⟩, after⟩
  rw [hpull] at hnext
  cases hnext
  rw [nextToken, Action.run_bind_of_ok (Action.run_lift hpull)]
  rcases result with error | _ | _ | complaint <;> rfl

/-- With such recognizers the tokens of a text are used one by one up to the first error, and if
there is none, the stream has the last word. -/
theorem Stream.run_collectTokens_lift {lexer : Lexer Id τ} {scene : Scene Bool ω}
    (hdown : scene.subject = false) {text : Bytes} {d : Drained τ}
    (hdrain : ((ofText text).drain lexer.lift).run scene = (d, scene))
    (use : τ → Action t (List β)) (state : t) :
    (collectTokens (fun stream => Action.onFirst (stream.nextToken lexer.lift))
      (fun token => Action.onSecond (use token)) (ofText text)).run (scene, state) =
        (((useAll use d.tokens).run state).1.bind d.settle,
          (scene, ((useAll use d.tokens).run state).2)) := by
  rcases huse : (useAll use d.tokens).run state with ⟨error | results, left⟩
  · exact run_collectTokensWithin_of_error (nextToken_lift_scene lexer hdown) hdrain huse
  · exact run_collectTokensWithin_of_ok hdrain huse

namespace Lexer

variable {lexer : Lexer Id τ} (hsuffixes : lexer.LeavesSuffixes) {scene : Scene Bool ω}
  (hdown : scene.subject = false) {text : Bytes}

include hsuffixes hdown

/-- A lexing that ends without a complaint says what the tokens of the text are. -/
theorem run_tokenize_lift {lexing : Lexing τ} (h : lexing.From lexer text 0)
    (hnone : lexing.complaint? = none) :
    (lexer.lift.tokenize text).run scene = (.ok (lexing.tokens.map Prod.fst), scene) := by
  obtain ⟨other, d, hother, hdrain, htokens, hfault⟩ :=
    Stream.exists_drain_lift hsuffixes hdown text
  obtain rfl := hother.unique h
  rw [hnone] at hfault
  rw [run_tokenize hdrain, Drained.settle_of_no_fault hfault, htokens]

/-- What is drained from a text that is tokenized: the items of its lexing, without a fault. -/
theorem exists_drain_of_tokenize {tokens : List τ} {after : Scene Bool ω}
    (h : (lexer.lift.tokenize text).run scene = (.ok tokens, after)) :
    ∃ (lexing : Lexing τ) (d : Drained τ), lexing.From lexer text 0 ∧
      ((Stream.ofText text).drain lexer.lift).run scene = (d, scene) ∧
      d.items = lexing.items {} ∧ d.fault? = none ∧ d.tokens = tokens ∧
      lexing.complaint? = none := by
  obtain ⟨lexing, d, hlexing, hdrain, hitems, herror⟩ :=
    Stream.exists_drain_items hsuffixes hdown text
  have hfault := Lexing.fault?_of_items hitems herror
  rw [run_tokenize hdrain] at h
  obtain ⟨hnone, htokens⟩ := Drained.settle_eq_ok_iff.1 (congrArg Prod.fst h)
  exact ⟨lexing, d, hlexing, hdrain, hitems, hnone, htokens,
    Option.map_eq_none_iff.1 (hfault.symm.trans hnone)⟩

/-- A text is tokenized by a lexing that ends without a complaint. -/
theorem exists_lexing_of_tokenize {tokens : List τ} {after : Scene Bool ω}
    (h : (lexer.lift.tokenize text).run scene = (.ok tokens, after)) :
    ∃ lexing : Lexing τ, lexing.From lexer text 0 ∧ lexing.complaint? = none ∧
      lexing.tokens.map Prod.fst = tokens := by
  obtain ⟨lexing, d, hlexing, -, hitems, -, htokens, hnone⟩ :=
    exists_drain_of_tokenize hsuffixes hdown h
  exact ⟨lexing, hlexing, hnone, (Lexing.tokens_of_items hitems).symm.trans htokens⟩

end Lexer

end ShiftReduce
