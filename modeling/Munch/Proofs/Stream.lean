import Munch.Session
import Munch.Proofs.Run

/-!
# The stream of a source

A source has one stream: tokens, and then for ever the token at its end or a diagnostic. All that
lexers of the source ever answer is read off this stream. How much of it a lexer has read depends on
what the lexer itself was asked before, and not on the other lexers.

## Main definitions

* `Stream`: tokens, and what comes behind them for ever.
* `Stream.answer`, `Stream.after`: the answer at a place of the stream, and the place behind it.
* `Stream.answers`: the answers to the steps of a session.
* `Session.asked`: what the steps of a session ask one lexer.
* `Answer.failure?`, `Answer.found`: the diagnostic and the tokens in an answer.
* `Lexer.Follows`: the invariant of a lexer at a place of the stream.
-/
namespace Munch

/-- Tokens before the end, and what comes behind them for ever: the token at the end or a
diagnostic. -/
@[ext]
structure Stream where
  tokens : List Token
  last : Except Diagnostic Token
  kind_ne_eof : ∀ t ∈ tokens, t.kind ≠ .eof
  isLast : IsLast last

/-- The queries that the steps of a session put to one lexer. -/
def Session.asked (index : Nat) (steps : List (Query × Nat)) : List Query :=
  (steps.filter fun step => step.2 = index).map Prod.fst

namespace Stream

/-- What stands at a place of the stream. -/
def get (σ : Stream) (place : Nat) : Except Diagnostic Token := (σ.tokens[place]?).elim σ.last .ok

/-- All tokens from a place on, the one at the end included once, unless a diagnostic stands
there. -/
def remaining (σ : Stream) (place : Nat) : Except Diagnostic (List Token) :=
  σ.last.map fun t => σ.tokens.drop place ++ [t]

/-- The answer of a lexer that has come to a place of the stream. -/
def answer (σ : Stream) (source : Bytes) (place : Nat) : Query → Answer
  | .next => .token (σ.get place)
  | .drain => .tokens (σ.remaining place)
  | .source => .source source

/-- The place to which a query takes a lexer. To drain it takes it behind the end, also if a
diagnostic stands there and the tokens in front of it are lost. -/
def after (σ : Stream) (place : Nat) : Query → Nat
  | .next => place + 1
  | .drain => max place σ.tokens.length + 1
  | .source => place

/-- The place to which queries take a new lexer. -/
def placeAfter (σ : Stream) (queries : List Query) : Nat := queries.foldl σ.after 0

/-- The answers of `count` new lexers to the steps of a session. Every lexer answers from the place
to which the earlier steps on it have taken it. -/
def answers (σ : Stream) (source : Bytes) (count : Nat) (steps : List (Query × Nat)) :
    List (Option Answer) :=
  steps.mapIdx fun i step =>
    if step.2 < count then
      some (σ.answer source (σ.placeAfter (Session.asked step.2 (steps.take i))) step.1)
    else none

/-! ## Places of a stream -/

variable (σ : Stream) {place : Nat}

theorem get_of_length_le (h : σ.tokens.length ≤ place) : σ.get place = σ.last := by
  rw [get, List.getElem?_eq_none h]
  rfl

theorem get_of_lt (h : place < σ.tokens.length) : σ.get place = .ok σ.tokens[place] := by
  rw [get, List.getElem?_eq_getElem h]
  rfl

/-- Behind its tokens a stream has its last element, and nowhere before. -/
theorem isLast_get_iff : IsLast (σ.get place) ↔ σ.tokens.length ≤ place := by
  constructor
  · intro hlast
    by_contra hlt
    rw [σ.get_of_lt (by omega)] at hlast
    exact σ.kind_ne_eof _ (List.getElem_mem _) (hlast _ rfl)
  · intro h
    rw [σ.get_of_length_le h]
    exact σ.isLast

/-- A stream is determined by what stands at its places. -/
theorem eq_of_get_eq {σ τ : Stream} (h : ∀ place, σ.get place = τ.get place) : σ = τ := by
  have hiff (place : Nat) : σ.tokens.length ≤ place ↔ τ.tokens.length ≤ place := by
    rw [← σ.isLast_get_iff, ← τ.isLast_get_iff, h]
  have hlength : σ.tokens.length = τ.tokens.length :=
    le_antisymm ((hiff _).2 le_rfl) ((hiff _).1 le_rfl)
  apply Stream.ext
  · refine List.ext_getElem hlength fun place hσ hτ => ?_
    have hplace := h place
    rw [σ.get_of_lt hσ, τ.get_of_lt hτ] at hplace
    exact Except.ok.inj hplace
  · have hplace := h σ.tokens.length
    rwa [σ.get_of_length_le le_rfl, τ.get_of_length_le hlength.ge] at hplace

theorem placeAfter_append_singleton (queries : List Query) (query : Query) :
    σ.placeAfter (queries ++ [query]) = σ.after (σ.placeAfter queries) query := by
  simp [placeAfter]

theorem placeAfter_replicate_next (n : Nat) : σ.placeAfter (List.replicate n .next) = n := by
  induction n with
  | zero => rfl
  | succ n ih => rw [List.replicate_succ', placeAfter_append_singleton, ih, after]

/-- A lexer that reads one token after the other comes to every place of the stream. -/
theorem getElem?_answers_replicate_next (source : Bytes) (place : Nat) :
    (σ.answers source 1 (List.replicate (place + 1) (.next, 0)))[place]? =
      some (some (.token (σ.get place))) := by
  have hasked : Session.asked 0 (List.replicate place (.next, 0)) = List.replicate place .next := by
    simp [Session.asked]
  simp [answers, answer, List.take_replicate, hasked, placeAfter_replicate_next]

end Stream

/-- The diagnostic in an answer. -/
def Answer.failure? : Answer → Option Diagnostic
  | .token (.error d) | .tokens (.error d) => some d
  | .token (.ok _) | .tokens (.ok _) | .source _ => none

@[simp]
theorem Answer.failure?_token {outcome : Except Diagnostic Token} {d : Diagnostic} :
    (Answer.token outcome).failure? = some d ↔ outcome = .error d := by
  cases outcome <;> simp [failure?]

@[simp]
theorem Answer.failure?_tokens {outcome : Except Diagnostic (List Token)} {d : Diagnostic} :
    (Answer.tokens outcome).failure? = some d ↔ outcome = .error d := by
  cases outcome <;> simp [failure?]

/-- The tokens in an answer. -/
def Answer.found : Answer → List Token
  | .token (.ok t) => [t]
  | .tokens (.ok ts) => ts
  | .token (.error _) | .tokens (.error _) | .source _ => []

/-- A stream answers with its last element or with its tokens. -/
theorem Stream.answer_spec (σ : Stream) (source : Bytes) (place : Nat) (query : Query) :
    (∀ d, (σ.answer source place query).failure? = some d → σ.last = .error d) ∧
      ∀ t ∈ (σ.answer source place query).found, t ∈ σ.tokens ∨ σ.last = .ok t := by
  cases query with
  | source => simp [answer, Answer.failure?, Answer.found]
  | next =>
    rcases Nat.lt_or_ge place σ.tokens.length with hlt | hge
    · have hmem : σ.tokens[place] ∈ σ.tokens := List.getElem_mem hlt
      simp [answer, σ.get_of_lt hlt, Answer.found, hmem]
    · cases hlast : σ.last <;> simp [answer, σ.get_of_length_le hge, hlast, Answer.found]
  | drain =>
    cases hlast : σ.last with
    | error d => simp [answer, remaining, hlast, Except.map, Answer.found]
    | ok u =>
      have hmem (t : Token) (ht : t ∈ σ.tokens.drop place ∨ t = u) : t ∈ σ.tokens ∨ u = t :=
        ht.imp List.mem_of_mem_drop Eq.symm
      simpa [answer, remaining, hlast, Except.map, Answer.found] using hmem

/-! ## One lexer -/

namespace Lexer

/-- A lexer after it has answered some queries. -/
def ask (l : Lexer) (queries : List Query) : Lexer :=
  queries.foldl (fun l query => (l.answer query).2) l

theorem ask_append (l : Lexer) (queries queries' : List Query) :
    l.ask (queries ++ queries') = (l.ask queries).ask queries' :=
  List.foldl_append

/-- A lexer has come to a place of the stream: the rest of the stream is the run of its cursor, or
it has failed and the stream has no more tokens. -/
inductive Follows (source : Bytes) (σ : Stream) : Nat → Lexer → Prop
  | running {place : Nat} {c c' : Cursor} (hrun : c.Run (σ.tokens.drop place) σ.last c') :
      Follows source σ place ⟨source, c, none⟩
  | failed {place : Nat} {c : Cursor} {d : Diagnostic} (hlast : σ.last = .error d)
      (hplace : σ.tokens.length ≤ place) : Follows source σ place ⟨source, c, some d⟩

/-- A new lexer stands at the beginning of a stream. -/
theorem exists_follows_ofSource (source : Bytes) : ∃ σ, Follows source σ 0 (ofSource source) := by
  obtain ⟨ts, last, c', hrun⟩ := (Cursor.ofSource source).exists_run
  exact ⟨⟨ts, last, hrun.kind_ne_eof, hrun.isLast⟩, .running hrun⟩

namespace Follows

variable {source : Bytes} {σ : Stream} {place : Nat} {l : Lexer}

theorem next (h : Follows source σ place l) :
    l.next.1 = σ.get place ∧ Follows source σ (place + 1) l.next.2 := by
  cases h with
  | failed hlast hplace =>
    rw [σ.get_of_length_le hplace, hlast]
    exact ⟨rfl, .failed hlast (by omega)⟩
  | @running c c' hrun =>
    generalize htokens : σ.tokens.drop place = tokens at hrun
    generalize hlast : σ.last = last at hrun
    cases hrun with
    | stop hscan hkind =>
      have hplace : σ.tokens.length ≤ place := List.drop_eq_nil_iff.1 htokens
      rw [σ.get_of_length_le hplace, hlast]
      cases last with
      | ok t =>
        have hend : c'.Run (σ.tokens.drop (place + 1)) σ.last c' := by
          rw [List.drop_eq_nil_of_le (by omega), hlast]
          exact .stop (Cursor.scan_of_scan_eof hscan (hkind t rfl)) hkind
        rw [next_of_scan_ok rfl hscan]
        exact ⟨rfl, .running hend⟩
      | error d =>
        rw [next_of_scan_error rfl hscan]
        exact ⟨rfl, .failed hlast (by omega)⟩
    | @token _ c₁ _ t ts _ hscan _ hrun =>
      have hlt : place < σ.tokens.length := by
        by_contra hle
        rw [List.drop_eq_nil_of_le (by omega)] at htokens
        cases htokens
      rw [List.drop_eq_getElem_cons hlt] at htokens
      obtain ⟨ht, hts⟩ := List.cons.inj htokens
      subst hlast hts
      rw [next_of_scan_ok rfl hscan, σ.get_of_lt hlt, ht]
      exact ⟨rfl, .running hrun⟩

theorem drain (h : Follows source σ place l) : l.drain.1 = σ.remaining place ∧
    Follows source σ (max place σ.tokens.length + 1) l.drain.2 := by
  cases h with
  | failed hlast hplace =>
    rw [Stream.remaining, hlast]
    exact ⟨rfl, .failed hlast (by omega)⟩
  | @running c c' hrun =>
    rw [Stream.remaining]
    generalize hlast : σ.last = last at hrun
    have hdrain := hrun.drain_eq (l := ⟨source, c, none⟩) rfl
    cases last with
    | ok t =>
      have hend : c'.Run (σ.tokens.drop (max place σ.tokens.length + 1)) σ.last c' := by
        rw [List.drop_eq_nil_of_le (by omega), hlast]
        exact hrun.run_end
      rw [hdrain]
      exact ⟨rfl, .running hend⟩
    | error d =>
      rw [hdrain]
      exact ⟨rfl, .failed hlast (by omega)⟩

/-- A lexer answers from its place of the stream and moves on. -/
theorem answer (h : Follows source σ place l) (query : Query) :
    (l.answer query).1 = σ.answer source place query ∧
      Follows source σ (σ.after place query) (l.answer query).2 := by
  cases query with
  | next => exact h.next.imp_left (congrArg Answer.token)
  | drain => exact h.drain.imp_left (congrArg Answer.tokens)
  | source => exact ⟨by cases h <;> rfl, h⟩

/-- Queries take a lexer from the beginning of the stream to their place. -/
theorem ask (h : Follows source σ 0 l) (queries : List Query) :
    Follows source σ (σ.placeAfter queries) (l.ask queries) := by
  induction queries using List.reverseRecOn with
  | nil => exact h
  | append_singleton queries query ih =>
    rw [Stream.placeAfter_append_singleton, ask_append]
    exact (ih.answer query).2

end Follows

variable {l : Lexer} {d : Diagnostic}

/-- A lexer that has failed stays as it is. -/
theorem ask_of_failure (h : l.failure = some d) (queries : List Query) : l.ask queries = l := by
  induction queries with
  | nil => rfl
  | cons query queries ih =>
    have hanswer : (l.answer query).2 = l := by
      cases query with
      | next => rw [answer, next_of_failure h]
      | drain => rw [answer, drain_of_failure h]
      | source => rfl
    rw [ask, List.foldl_cons, hanswer]
    exact ih

/-- A lexer that has failed answers with its diagnostic. -/
theorem failure?_answer_of_failure (h : l.failure = some d) {query : Query}
    (hquery : query ≠ .source) : (l.answer query).1.failure? = some d := by
  cases query with
  | next => simp [answer, next_of_failure h]
  | drain => simp [answer, drain_of_failure h]
  | source => exact absurd rfl hquery

/-- A lexer that answers with a diagnostic has failed. -/
theorem failure_of_failure?_answer {query : Query} (h : (l.answer query).1.failure? = some d) :
    (l.answer query).2.failure = some d := by
  cases query with
  | next => exact failure_of_next (Answer.failure?_token.1 h)
  | drain => exact failure_of_drain (Answer.failure?_tokens.1 h)
  | source => cases h

end Lexer

/-! ## Sessions -/

namespace Session

theorem asked_append (index : Nat) (steps steps' : List (Query × Nat)) :
    asked index (steps ++ steps') = asked index steps ++ asked index steps' := by
  simp [asked]

/-- A step asks one lexer and leaves all others as they are. -/
theorem getElem?_lexers_step (session : Session) (query : Query) (index k : Nat) :
    (session.step query index).2.lexers[k]? =
      session.lexers[k]?.map fun l => l.ask (asked k [(query, index)]) := by
  by_cases hk : index = k
  · subst hk
    cases hlexer : session.lexers[index]? with
    | none => simp [step, hlexer]
    | some l =>
      obtain ⟨hlt, rfl⟩ := List.getElem?_eq_some_iff.1 hlexer
      simp [step, asked, Lexer.ask, hlt]
  · have hasked : asked k [(query, index)] = [] := by simp [asked, hk]
    have hask : (fun l : Lexer => l.ask []) = id := rfl
    rw [hasked, hask, Option.map_id_apply]
    cases hlexer : session.lexers[index]? with
    | none => simp [step, hlexer]
    | some l => simp [step, hlexer, hk]

/-- The lexers of a session do not interfere: an answer is the one that the lexer gives after the
earlier queries put to it. -/
theorem run_eq_mapIdx (steps : List (Query × Nat)) (session : Session) :
    session.run steps = steps.mapIdx fun i step => session.lexers[step.2]?.map fun l =>
      ((l.ask (asked step.2 (steps.take i))).answer step.1).1 := by
  induction steps generalizing session with
  | nil => rfl
  | cons step steps ih =>
    obtain ⟨query, index⟩ := step
    rw [run, ih, List.mapIdx_cons]
    congr 1
    · simp only [List.take_zero]
      cases hlexer : session.lexers[index]? with
      | none => simp [Session.step, hlexer]
      | some l =>
        simp only [Session.step, hlexer]
        rfl
    · congr 1
      funext i step
      rw [getElem?_lexers_step, Option.map_map]
      congr 1
      funext l
      have htake : ((query, index) :: steps).take (i + 1) = [(query, index)] ++ steps.take i := rfl
      rw [htake, asked_append, Lexer.ask_append]
      rfl

/-- If the earlier step is answered with a diagnostic, then also the later one, unless it is on
another lexer or asks for the source. -/
def Persists (earlier later : (Query × Nat) × Option Answer) : Prop :=
  earlier.1.2 = later.1.2 → later.1.1 ≠ .source → ∀ d,
    earlier.2.bind Answer.failure? = some d → later.2.bind Answer.failure? = some d

/-- After a lexer has failed, it answers all that it is asked for with its diagnostic. -/
theorem failure?_of_mem_zip_run {session : Session} {index : Nat} {l : Lexer} {d : Diagnostic}
    (h : session.lexers[index]? = some l) (hl : l.failure = some d) {steps : List (Query × Nat)}
    {later : (Query × Nat) × Option Answer} (hmem : later ∈ steps.zip (session.run steps))
    (hindex : later.1.2 = index) (hquery : later.1.1 ≠ .source) :
    later.2.bind Answer.failure? = some d := by
  obtain ⟨i, hi, rfl⟩ := List.mem_iff_getElem.1 hmem
  simp only [List.getElem_zip, run_eq_mapIdx, List.getElem_mapIdx] at hindex hquery ⊢
  subst hindex
  rw [h, Option.map_some, Option.bind_some, Lexer.ask_of_failure hl]
  exact Lexer.failure?_answer_of_failure hl hquery

/-- In every session diagnostics persist. -/
theorem pairwise_persists (steps : List (Query × Nat)) (session : Session) :
    (steps.zip (session.run steps)).Pairwise Persists := by
  induction steps generalizing session with
  | nil => exact .nil
  | cons step steps ih =>
    obtain ⟨query, index⟩ := step
    rw [run, List.zip_cons_cons, List.pairwise_cons]
    refine ⟨fun later hmem hindex hquery d hd => ?_, ih _⟩
    cases hlexer : session.lexers[index]? with
    | none => simp [Session.step, hlexer] at hd
    | some l =>
      have hd : (l.answer query).1.failure? = some d := by simpa [Session.step, hlexer] using hd
      have hlexer' : (session.step query index).2.lexers[index]? = some (l.answer query).2 := by
        rw [getElem?_lexers_step, hlexer]
        simp [asked, Lexer.ask]
      exact failure?_of_mem_zip_run hlexer' (Lexer.failure_of_failure?_answer hd) hmem hindex.symm
        hquery

/-- Every lexer of a session answers with what stands on the run of the source. -/
theorem exists_run_answers (source : Bytes) : ∃ ts last c', (Cursor.place source 0).Run ts last c' ∧
    ∀ count steps answer, some answer ∈ (start source count).run steps →
      (∀ d, answer.failure? = some d → last = .error d) ∧
        ∀ t ∈ answer.found, t ∈ ts ∨ last = .ok t := by
  obtain ⟨σ, hfollows⟩ := Lexer.exists_follows_ofSource source
  obtain ⟨c', hrun⟩ : ∃ c', (Cursor.place source 0).Run σ.tokens σ.last c' := by
    rw [Cursor.place, Cursor.advance_zero]
    cases hfollows with
    | running hrun => exact ⟨_, hrun⟩
  refine ⟨σ.tokens, σ.last, c', hrun, fun count steps answer hmem => ?_⟩
  rw [run_eq_mapIdx] at hmem
  obtain ⟨i, hi, heq⟩ := List.mem_mapIdx.1 hmem
  obtain ⟨l, hl, rfl⟩ := Option.map_eq_some_iff.1 heq
  obtain rfl := List.eq_of_mem_replicate (List.mem_of_getElem? hl)
  rw [((hfollows.ask _).answer _).1]
  exact σ.answer_spec source _ _

/-- A source that is one literal is answered with the reason for which the literal is refused. -/
theorem mem_run_of_refused {source : Bytes} {form : Literal} {refusal : Refusal} {d : Diagnostic}
    (h : Applies (.literal form) source source) (hread : form.read source = .error refusal)
    (hd : (Cursor.place source (min refusal.index source.length)).report refusal.fault = d) :
    some (.token (.error d)) ∈ (start source 1).run [(.next, 0)] := by
  have hscan := Cursor.scan_of_refused (c := .ofSource source) h hread
  have hnext := Lexer.next_of_scan_error (l := .ofSource source) rfl hscan
  rw [← hd]
  exact List.mem_singleton.2 (congrArg (some ∘ Answer.token ∘ Prod.fst) hnext).symm

/-- A source has one stream, and whatever lexers of the source are asked and in whatever order, the
stream gives their answers. What is answered with a diagnostic is answered with it for ever. -/
theorem run_canonical_stream (source : Bytes) :
    (∃! σ : Stream, ∀ count steps, (start source count).run steps = σ.answers source count steps) ∧
      ∀ count steps, (List.zip steps ((start source count).run steps)).Pairwise Persists := by
  refine ⟨?_, fun count steps => pairwise_persists steps _⟩
  obtain ⟨σ, hfollows⟩ := Lexer.exists_follows_ofSource source
  have hanswers (count : Nat) (steps : List (Query × Nat)) :
      (start source count).run steps = σ.answers source count steps := by
    rw [run_eq_mapIdx, Stream.answers]
    congr 1
    funext i step
    rw [start, List.getElem?_replicate]
    split
    · exact congrArg some ((hfollows.ask _).answer step.1).1
    · rfl
  refine ⟨σ, hanswers, fun τ hτ => Stream.eq_of_get_eq fun place => ?_⟩
  let steps : List (Query × Nat) := List.replicate (place + 1) (.next, 0)
  have heq : (τ.answers source 1 steps)[place]? = (σ.answers source 1 steps)[place]? := by
    rw [← hτ, hanswers]
  rw [τ.getElem?_answers_replicate_next, σ.getElem?_answers_replicate_next] at heq
  injection heq with heq
  injection heq with heq
  injection heq

end Session
end Munch
