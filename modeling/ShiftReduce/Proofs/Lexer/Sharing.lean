import Mathlib.Logic.Function.Basic
import ShiftReduce.Lexer.Iterator
import ShiftReduce.Proofs.Lexer.Reentry

/-!
# Streams that share a lexer

Streams on one lexer share its flag and nothing else. If the recognizers only look at their input,
what a pull comes to depends on its own stream only, and it leaves the flag down again, also when it
ends in an error (`Stream.steady_next`). So it does not matter what is done with the other streams,
in which order, or which texts are tokenized in between: every stream is used as if it were alone
(`Stream.streams_do_not_interfere`).

Being `Steady` passes from parts to the whole, so each way of using a stream needs no more than the
fact about pulls.
-/

namespace ShiftReduce

variable {τ ω α β ι : Type} {p : Bool → Prop}

/-! ## Programs that depend on nothing shared -/

/-- With a flag that satisfies `p` the program always comes to the same, and it leaves everything as
it is. -/
def Steady (p : Bool → Prop) (x : StateM (Scene Bool ω) α) : Prop :=
  ∃ a, ∀ scene, p scene.subject → x.run scene = (a, scene)

namespace Steady

theorem pure (a : α) : Steady p (Pure.pure a : StateM (Scene Bool ω) α) := ⟨a, fun _ _ => rfl⟩

theorem bind {x : StateM (Scene Bool ω) α} {f : α → StateM (Scene Bool ω) β} (hx : Steady p x)
    (hf : ∀ a, Steady p (f a)) : Steady p (x >>= f) := by
  obtain ⟨a, ha⟩ := hx
  obtain ⟨b, hb⟩ := hf a
  exact ⟨b, fun scene h => (run_bind_of_run (ha scene h)).trans (hb scene h)⟩

end Steady

/-- The lexer for use beside a flag and a world, which its recognizers do not look at. -/
def Lexer.liftExcept (lexer : Lexer (Except Error) τ) : Lexer (Action (Scene Bool ω)) τ :=
  lexer.map Action.ofExcept

theorem Lexer.steady_recognize (lexer : Lexer (Except Error) τ) (input : Bytes) :
    Steady p ((lexer.liftExcept.recognize input).attempt :
      StateM (Scene Bool ω) (Except Error (Outcome τ))) := by
  have hbind (x : Except Error (Outcome τ)) (g : Outcome τ → Except Error (Outcome τ)) :
      (Action.ofExcept (x >>= g) : Action (Scene Bool ω) (Outcome τ)) =
        Action.ofExcept x >>= fun outcome => Action.ofExcept (g outcome) := by
    cases x <;> rfl
  refine ⟨lexer.recognize input, fun scene _ => ?_⟩
  rw [liftExcept, recognize_map (fun _ => rfl) hbind]
  exact Action.run_ofExcept _ scene

namespace Stream

variable (lexer : Lexer (Except Error) τ)

theorem steady_skipIgnored (index : Nat) (input : Bytes) :
    Steady p (skipIgnored lexer.liftExcept index input :
      StateM (Scene Bool ω) (Nat × Except Error (Outcome τ))) := by
  induction input generalizing index with
  | nil => exact .pure _
  | cons b rest ih =>
    refine .bind (lexer.steady_recognize (b :: rest)) fun decision => ?_
    rcases decision with error | ⟨token, remainder⟩ | _ | message
    · exact .pure _
    · exact .pure _
    · exact ih (index + 1)
    · exact .pure _

/-- What is steady while the flag is up can be done with the flag raised for its time. -/
theorem steady_exclusively (s : Stream) {pull : StateM (Scene Bool ω) (Pull τ)}
    (h : Steady (· = true) pull) : Steady (· = false) (s.exclusively pull) := by
  obtain ⟨result, hpull⟩ := h
  refine ⟨result, fun scene hdown => ?_⟩
  rw [exclusively_of_lowered _ _ hdown, hpull _ rfl, ← hdown]

/-- A pull comes to what its stream and the lexer say, and leaves the flag down. -/
theorem steady_next (s : Stream) :
    Steady (· = false) (s.next lexer.liftExcept : StateM (Scene Bool ω) (Pull τ)) := by
  unfold next
  split
  · exact .pure _
  · exact s.steady_exclusively (.bind (steady_skipIgnored lexer _ _) fun _ => .pure _)

theorem steady_drain (n : Nat) (s : Stream) :
    Steady (· = false) (drainWithin lexer.liftExcept n s : StateM (Scene Bool ω) (Drained τ)) := by
  induction n generalizing s with
  | zero => exact .pure _
  | succ n ih =>
    refine .bind (steady_next lexer s) fun p => ?_
    rcases p with ⟨error | _ | item, stream⟩
    · exact .pure _
    · exact .pure _
    · exact .bind (ih stream) fun rest => .pure _

end Stream

theorem Lexer.steady_tokenize (lexer : Lexer (Except Error) τ) (text : Bytes) :
    Steady (· = false) ((lexer.liftExcept.tokenize text).attempt :
      StateM (Scene Bool ω) (Except Error (List τ))) := by
  obtain ⟨d, hdrain⟩ :=
    Stream.steady_drain lexer (ω := ω) (Stream.ofText text).pullBound (.ofText text)
  exact ⟨_, fun scene hdown => Lexer.run_tokenize (hdrain scene hdown)⟩

namespace Iterator

variable (lexer : Lexer (Except Error) τ)

theorem steady_advance (it : Iterator τ) (s : Stream) :
    Steady (· = false) (it.advance lexer.liftExcept s : StateM (Scene Bool ω) (Move τ Unit)) := by
  refine .bind (Stream.steady_next lexer s) fun p => ?_
  rcases p with ⟨error | current, stream⟩ <;> exact .pure _

theorem steady_start (s : Stream) :
    Steady (· = false) (start lexer.liftExcept s : StateM (Scene Bool ω) (Move τ Unit)) := by
  refine .bind (steady_advance lexer _ s) fun move => ?_
  rcases move with ⟨error | _, iterator, stream⟩ <;> exact .pure _

theorem steady_postAdvance (it : Iterator τ) (s : Stream) :
    Steady (· = false)
      (it.postAdvance lexer.liftExcept s : StateM (Scene Bool ω) (Move τ (Option (Item τ)))) :=
  .bind (it.steady_advance lexer s) fun _ => .pure _

end Iterator

/-! ## Using one stream -/

/-- A stream, and iterators on it that go by numbers. -/
structure Reader (τ : Type) where
  stream : Stream
  iterators : Nat → Iterator τ

namespace Reader

/-- What can be done with a stream: a pull, `begin`, `++it` and `it++` for any of the iterators, and
questions about places. -/
inductive Use where
  | next
  | start (k : Nat)
  | advance (k : Nat)
  | postAdvance (k : Nat)
  | position
  | positionAt (index : Nat)

/-- What a use returns. An iterator at the end is not moved. -/
inductive Reply (τ : Type) where
  | pulled (result : Except Error (Option (Item τ)))
  | moved (result : Except Error Unit)
  | copied (result : Except Error (Option (Item τ)))
  | unmoved
  | place (position : Position)

/-- A stream on a text, with no iterator on it yet. -/
def ofText (text : Bytes) : Reader τ := { stream := .ofText text, iterators := fun _ => .atEnd }

/-- The reader after one of its iterators was moved. -/
def afterMove (r : Reader τ) (k : Nat) (move : Move τ α) : Reader τ :=
  { stream := move.stream, iterators := Function.update r.iterators k move.iterator }

def place (r : Reader τ) (tabs : TabStops) (index : Nat) : Reply τ × Reader τ :=
  let (position, stream) := r.stream.positionAt tabs index
  (.place position, { r with stream })

def perform (lexer : Lexer (Action (Scene Bool ω)) τ) (r : Reader τ) :
    Use → StateM (Scene Bool ω) (Reply τ × Reader τ)
  | .next => do
    let p ← r.stream.next lexer
    pure (.pulled p.result, { r with stream := p.stream })
  | .start k => do
    let move ← Iterator.start lexer r.stream
    pure (.moved move.result, r.afterMove k move)
  | .advance k =>
    if (r.iterators k).isAtEnd then pure (.unmoved, r)
    else do
      let move ← (r.iterators k).advance lexer r.stream
      pure (.moved move.result, r.afterMove k move)
  | .postAdvance k =>
    if (r.iterators k).isAtEnd then pure (.unmoved, r)
    else do
      let move ← (r.iterators k).postAdvance lexer r.stream
      pure (.copied move.result, r.afterMove k move)
  | .position => pure (r.place lexer.tabs r.stream.index)
  | .positionAt index => pure (r.place lexer.tabs index)

/-- One use after the other, each with what it returned and the reader after it. -/
def run (lexer : Lexer (Action (Scene Bool ω)) τ) :
    List Use → Reader τ → StateM (Scene Bool ω) (List (Reply τ × Reader τ) × Reader τ)
  | [], r => pure ([], r)
  | use :: uses, r => do
    let step ← r.perform lexer use
    let (steps, r) ← run lexer uses step.2
    pure (step :: steps, r)

theorem steady_perform (lexer : Lexer (Except Error) τ) (r : Reader τ) (use : Use) :
    Steady (· = false)
      (r.perform lexer.liftExcept use : StateM (Scene Bool ω) (Reply τ × Reader τ)) := by
  cases use with
  | next => exact .bind (Stream.steady_next lexer r.stream) fun _ => .pure _
  | start k => exact .bind (Iterator.steady_start lexer r.stream) fun _ => .pure _
  | advance k =>
    simp only [perform]
    split
    · exact .pure _
    · exact .bind (Iterator.steady_advance lexer _ r.stream) fun _ => .pure _
  | postAdvance k =>
    simp only [perform]
    split
    · exact .pure _
    · exact .bind (Iterator.steady_postAdvance lexer _ r.stream) fun _ => .pure _
  | position => exact .pure _
  | positionAt index => exact .pure _

end Reader

/-! ## Using several streams -/

/-- What can be done with a lexer that streams are open on: a use of one of them, or tokenizing a
text. -/
inductive SharedUse (ι : Type) where
  | on (i : ι) (use : Reader.Use)
  | tokenize (text : Bytes)

/-- What a use has come to. -/
inductive SharedStep (ι τ : Type) where
  | on (i : ι) (step : Reader.Reply τ × Reader τ)
  | tokenized (result : Except Error (List τ))

section Shared

variable [DecidableEq ι]

/-- What is done with one of the streams. -/
def SharedUse.of (i : ι) : SharedUse ι → Option Reader.Use
  | on j use => if j = i then some use else none
  | tokenize _ => none

def SharedUse.text? : SharedUse ι → Option Bytes
  | on _ _ => none
  | tokenize text => some text

def SharedStep.of (i : ι) : SharedStep ι τ → Option (Reader.Reply τ × Reader τ)
  | on j step => if j = i then some step else none
  | tokenized _ => none

def SharedStep.tokens? : SharedStep ι τ → Option (Except Error (List τ))
  | on _ _ => none
  | tokenized result => some result

/-- One use after the other, with the one flag of the lexer. -/
def SharedUse.run (lexer : Lexer (Action (Scene Bool ω)) τ) :
    List (SharedUse ι) → (ι → Reader τ) →
      StateM (Scene Bool ω) (List (SharedStep ι τ) × (ι → Reader τ))
  | [], readers => pure ([], readers)
  | on i use :: uses, readers => do
    let step ← (readers i).perform lexer use
    let (steps, readers) ← run lexer uses (Function.update readers i step.2)
    pure (.on i step :: steps, readers)
  | tokenize text :: uses, readers => do
    let result ← (lexer.tokenize text).attempt
    let (steps, readers) ← run lexer uses readers
    pure (.tokenized result :: steps, readers)

/-- What is done with one stream comes to the same if nothing else is done, and so do the texts that
are tokenized. -/
structure Undisturbed (lexer : Lexer (Action (Scene Bool ω)) τ) (uses : List (SharedUse ι))
    (readers : ι → Reader τ) (steps : List (SharedStep ι τ)) (after : ι → Reader τ)
    (scene : Scene Bool ω) : Prop where
  alone : ∀ i, (Reader.run lexer (uses.filterMap (SharedUse.of i)) (readers i)).run scene =
    ((steps.filterMap (SharedStep.of i), after i), scene)
  tokenized : steps.filterMap SharedStep.tokens? =
    (uses.filterMap SharedUse.text?).map fun text => ((lexer.tokenize text).run scene).1

theorem SharedUse.run_undisturbed (lexer : Lexer (Except Error) τ) (uses : List (SharedUse ι))
    (readers : ι → Reader τ) : ∃ steps after, ∀ scene : Scene Bool ω, scene.subject = false →
      (run lexer.liftExcept uses readers).run scene = ((steps, after), scene) ∧
        Undisturbed lexer.liftExcept uses readers steps after scene := by
  induction uses generalizing readers with
  | nil => exact ⟨[], readers, fun scene _ => ⟨rfl, fun _ => rfl, rfl⟩⟩
  | cons use uses ih =>
    cases use with
    | on i use =>
      obtain ⟨step, hstep⟩ := Reader.steady_perform lexer (ω := ω) (readers i) use
      obtain ⟨steps, after, hrest⟩ := ih (Function.update readers i step.2)
      refine ⟨.on i step :: steps, after, fun scene hdown => ?_⟩
      obtain ⟨hrun, halone, htokenized⟩ := hrest scene hdown
      refine ⟨?_, fun j => ?_, htokenized⟩
      · rw [run, run_bind_of_run (hstep scene hdown), run_bind_of_run hrun]
        rfl
      · have halone := halone j
        by_cases hij : i = j
        · subst hij
          rw [Function.update_self] at halone
          simp only [List.filterMap_cons, SharedUse.of, SharedStep.of, if_true]
          rw [Reader.run, run_bind_of_run (hstep scene hdown), run_bind_of_run halone]
          rfl
        · rw [Function.update_of_ne (Ne.symm hij)] at halone
          simpa only [List.filterMap_cons, SharedUse.of, SharedStep.of, if_neg hij] using halone
    | tokenize text =>
      obtain ⟨result, hresult⟩ := Lexer.steady_tokenize lexer (ω := ω) text
      obtain ⟨steps, after, hrest⟩ := ih readers
      refine ⟨.tokenized result :: steps, after, fun scene hdown => ?_⟩
      obtain ⟨hrun, halone, htokenized⟩ := hrest scene hdown
      have htext : ((lexer.liftExcept.tokenize text).run scene).1 = result :=
        congrArg Prod.fst (hresult scene hdown)
      refine ⟨?_, halone, ?_⟩
      · rw [run, run_bind_of_run (hresult scene hdown), run_bind_of_run hrun]
        rfl
      · simp only [List.filterMap_cons, SharedStep.tokens?, SharedUse.text?, List.map_cons, htext,
          htokenized]

/-- Streams are open on a lexer whose recognizers only look at their input, and they are used in any
order, with texts tokenized in between. Each of them comes to what it comes to alone: it returns the
same, and it is left the same after every use. The flag of the lexer is down in the end. -/
theorem Stream.streams_do_not_interfere (lexer : Lexer (Except Error) τ) (texts : ι → Bytes)
    (uses : List (SharedUse ι)) (world : ω) :
    ∃ steps after,
      (SharedUse.run lexer.liftExcept uses fun i => .ofText (texts i)).run
          { subject := false, world } = ((steps, after), { subject := false, world }) ∧
        ∀ world' : ω, Undisturbed lexer.liftExcept uses (fun i => .ofText (texts i)) steps after
          { subject := false, world := world' } := by
  obtain ⟨steps, after, h⟩ := SharedUse.run_undisturbed lexer uses fun i => .ofText (texts i)
  exact ⟨steps, after, (h _ rfl).1, fun world' => (h _ rfl).2⟩

end Shared

end ShiftReduce
