import Mathlib.Data.List.Basic
import Fool.Token.Lexer
import Fool.Token.Lookahead

/-!
# Looking ahead keeps the order

A source is seen as the sequence of its `answers`, tokens and faults. Whatever a call does, it reads on from where the
source stands, reports the one fault that it comes to, and keeps the tokens in their order between the tokens taken and
those in the buffer (`call_reads`). By induction so do all calls together (`calls_read`). What is in the buffer can be
taken without a fault (`lt_length_taken`). `calls_in_order` says what this means for the tokens taken, the faults
reported and the tokens that were looked at.
-/

namespace Fool

namespace Lookahead

variable {σ : Type} (read : σ → Except ParseError Token × σ)

/-! ## Sources -/

/-- The source behind its first `n` answers. -/
def sourceAfter : Nat → σ → σ
  | 0, s => s
  | n + 1, s => sourceAfter n (read s).2

/-- The first `n` answers of a source. -/
def answers : Nat → σ → List (Except ParseError Token)
  | 0, _ => []
  | n + 1, s => (read s).1 :: answers n (read s).2

theorem sourceAfter_add (n k : Nat) (s : σ) : sourceAfter read (n + k) s = sourceAfter read k (sourceAfter read n s) := by
  induction n generalizing s with
  | zero => rw [Nat.zero_add, sourceAfter]
  | succ n ih => rw [Nat.succ_add, sourceAfter, sourceAfter, ih]

theorem answers_add (n k : Nat) (s : σ) :
    answers read (n + k) s = answers read n s ++ answers read k (sourceAfter read n s) := by
  induction n generalizing s with
  | zero => rw [Nat.zero_add, sourceAfter, answers, List.nil_append]
  | succ n ih => rw [Nat.succ_add, answers, sourceAfter, answers, ih, List.cons_append]

/-- The tokens among answers. -/
def tokens (answers : List (Except ParseError Token)) : List Token := answers.filterMap Except.toOption

/-- The fault that an answer is. -/
def fault? : Except ParseError Token → Option ParseError
  | .ok _ => none
  | .error e => some e

/-- The faults among answers. -/
def faults (answers : List (Except ParseError Token)) : List ParseError := answers.filterMap fault?

variable {as bs : List (Except ParseError Token)} {t : Token} {e : ParseError}

@[simp] theorem tokens_nil : tokens [] = [] := rfl

@[simp] theorem tokens_ok : tokens (.ok t :: as) = t :: tokens as := rfl

@[simp] theorem tokens_error : tokens (.error e :: as) = tokens as := rfl

@[simp] theorem tokens_append : tokens (as ++ bs) = tokens as ++ tokens bs := List.filterMap_append

@[simp] theorem faults_nil : faults [] = [] := rfl

@[simp] theorem faults_ok : faults (.ok t :: as) = faults as := rfl

@[simp] theorem faults_error : faults (.error e :: as) = e :: faults as := rfl

@[simp] theorem faults_append : faults (as ++ bs) = faults as ++ faults bs := List.filterMap_append

/-! ## Calls -/

/-- What can be asked of a source that is looked ahead in. -/
inductive Call where
  | advance
  | peekAt (k : Nat)
deriving DecidableEq, Repr

/-- The answer of a step, and what it leaves. -/
def answer {α : Type} : EStateM.Result ParseError (Lookahead σ) α → Except ParseError α × Lookahead σ
  | .ok a la => (.ok a, la)
  | .error e la => (.error e, la)

/-- The answer of a call, and what it leaves. -/
def call (c : Call) (la : Lookahead σ) : Except ParseError Token × Lookahead σ :=
  match c with
  | .advance => answer (advance read la)
  | .peekAt k => answer (peekAt read k la)

/-- What calls leave, made one after the other. -/
def behind (la : Lookahead σ) (calls : List Call) : Lookahead σ := calls.foldl (fun la c => (call read c la).2) la

/-- The calls with their answers. -/
def replies (la : Lookahead σ) : List Call → List (Call × Except ParseError Token)
  | [] => []
  | c :: calls => (c, (call read c la).1) :: replies (call read c la).2 calls

/-- The tokens that calls of `advance` have returned. -/
def taken (la : Lookahead σ) (calls : List Call) : List Token :=
  tokens (((replies read la calls).filter (·.1 = .advance)).map (·.2))

/-- The faults that calls of any kind have reported. -/
def reported (la : Lookahead σ) (calls : List Call) : List ParseError := faults ((replies read la calls).map (·.2))

/-- The token that one call takes, if it takes one. -/
def takenBy (c : Call) (reply : Except ParseError Token) : List Token := if c = .advance then tokens [reply] else []

variable {la : Lookahead σ} {c : Call} {calls : List Call}

theorem taken_cons : taken read la (c :: calls) =
    takenBy c (call read c la).1 ++ taken read (call read c la).2 calls := by
  unfold taken takenBy
  rw [replies]
  by_cases h : c = .advance
  · rw [List.filter_cons_of_pos (by simpa using h), if_pos h, List.map_cons, ← tokens_append, List.singleton_append]
  · rw [List.filter_cons_of_neg (by simpa using h), if_neg h, List.nil_append]

theorem reported_cons : reported read la (c :: calls) =
    faults [(call read c la).1] ++ reported read (call read c la).2 calls := by
  unfold reported
  rw [replies, List.map_cons, ← faults_append, List.singleton_append]

/-! ## One call -/

/-- From `la` to `la'` the source has given `n` answers. Their faults have been reported; their tokens are behind those of
the old buffer, and together these are the tokens taken, then those of the new buffer. -/
structure Reads (la : Lookahead σ) (out : List Token) (errors : List ParseError) (la' : Lookahead σ) (n : Nat) : Prop where
  source : la'.source = sourceAfter read n la.source
  faults : faults (answers read n la.source) = errors
  tokens : la.buffer ++ tokens (answers read n la.source) = out ++ la'.buffer

variable {read} {la' la'' : Lookahead σ} {out out' : List Token} {errors errors' : List ParseError} {n k : Nat}

theorem Reads.refl (la : Lookahead σ) : Reads read la [] [] la 0 := ⟨rfl, rfl, List.append_nil _⟩

theorem Reads.trans (h : Reads read la out errors la' n) (h' : Reads read la' out' errors' la'' k) :
    Reads read la (out ++ out') (errors ++ errors') la'' (n + k) where
  source := by rw [h'.source, h.source, sourceAfter_add]
  faults := by rw [answers_add, faults_append, h.faults, ← h.source, h'.faults]
  tokens := by
    rw [answers_add, tokens_append, ← List.append_assoc, h.tokens, List.append_assoc, ← h.source, h'.tokens,
      List.append_assoc]

variable (read) in
/-- Reading one token into the buffer. -/
theorem reads_readOne (la : Lookahead σ) :
    Reads read la [] (Lookahead.faults [(answer (readOne read la)).1]) (answer (readOne read la)).2 1 := by
  unfold readOne
  rcases hread : read la.source with ⟨e | t, s⟩
  · exact ⟨by simp [answer, sourceAfter, hread], by simp [answer, answers, hread], by simp [answer, answers, hread]⟩
  · exact ⟨by simp [answer, sourceAfter, hread], by simp [answer, answers, hread], by simp [answer, answers, hread]⟩

/-- Reading tokens into the buffer, up to a fault. -/
theorem reads_readOn (n : Nat) (la : Lookahead σ) : ∃ k,
    Reads read la [] (Lookahead.faults [(answer (readOn read n la)).1]) (answer (readOn read n la)).2 k := by
  induction n generalizing la with
  | zero => exact ⟨1, reads_readOne read la⟩
  | succ n ih =>
    have hone := reads_readOne read la
    have hbind : readOn read (n + 1) la = EStateM.bind (readOne read) (fun _ => readOn read n) la := rfl
    rw [hbind, EStateM.bind]
    cases h : readOne read la with
    | error e la₁ =>
      rw [h] at hone
      exact ⟨1, hone⟩
    | ok t la₁ =>
      rw [h] at hone
      obtain ⟨k, hrest⟩ := ih la₁
      exact ⟨1 + k, hone.trans hrest⟩

theorem call_peekAt_of_some (h : la.buffer[k]? = some t) : call read (.peekAt k) la = (.ok t, la) := by
  simp only [call, peekAt, h, answer]

theorem call_peekAt_of_none (h : la.buffer[k]? = none) :
    call read (.peekAt k) la = answer (readOn read (k - la.buffer.length) la) := by
  simp only [call, peekAt, h]

variable (read) in
/-- **One call reads on**, reports what it comes to and keeps the order. -/
theorem call_reads (c : Call) (la : Lookahead σ) : ∃ n,
    Reads read la (takenBy c (call read c la).1) (Lookahead.faults [(call read c la).1]) (call read c la).2 n := by
  cases c with
  | advance =>
    obtain ⟨source, buffer⟩ := la
    cases buffer with
    | cons t buffer => exact ⟨0, rfl, rfl, List.append_nil _⟩
    | nil =>
      refine ⟨1, ?_⟩
      simp only [call, advance]
      rcases hread : read source with ⟨e | t, s⟩
      · exact ⟨by simp [answer, sourceAfter, hread], by simp [answer, answers, hread],
          by simp [answer, answers, hread, takenBy]⟩
      · exact ⟨by simp [answer, sourceAfter, hread], by simp [answer, answers, hread],
          by simp [answer, answers, hread, takenBy]⟩
  | peekAt k =>
    have hnone : ∀ reply, takenBy (.peekAt k) reply = [] := fun _ => rfl
    rw [hnone]
    cases hbuffer : la.buffer[k]? with
    | some t =>
      rw [call_peekAt_of_some hbuffer]
      exact ⟨0, .refl la⟩
    | none =>
      rw [call_peekAt_of_none hbuffer]
      exact reads_readOn _ la

/-! ## All calls -/

variable (read) in
/-- **So do calls one after the other.** -/
theorem calls_read (la : Lookahead σ) (calls : List Call) : ∃ n,
    Reads read la (taken read la calls) (reported read la calls) (behind read la calls) n := by
  induction calls generalizing la with
  | nil => exact ⟨0, .refl la⟩
  | cons c calls ih =>
    obtain ⟨n, hfirst⟩ := call_reads read c la
    obtain ⟨k, hrest⟩ := ih (call read c la).2
    rw [taken_cons, reported_cons]
    exact ⟨n + k, hfirst.trans hrest⟩

variable (read) in
/-- A call that takes nothing leaves the buffer as it is, but for tokens added at its end. -/
theorem buffer_prefix_of_peekAt (k : Nat) (la : Lookahead σ) : la.buffer <+: (call read (.peekAt k) la).2.buffer := by
  obtain ⟨n, h⟩ := call_reads read (.peekAt k) la
  have htokens : la.buffer ++ _ = [] ++ _ := h.tokens
  exact ⟨_, htokens⟩

/-- Reading on, the token given is the last of the buffer. -/
theorem getElem?_of_readOn {n : Nat} (h : readOn read n la = .ok t la') : la'.buffer[la.buffer.length + n]? = some t := by
  induction n generalizing la with
  | zero =>
    unfold readOn readOne at h
    rcases hread : read la.source with ⟨e | u, s⟩ <;> rw [hread] at h <;> cases h
    simp
  | succ n ih =>
    have hbind : EStateM.bind (readOne read) (fun _ => readOn read n) la = .ok t la' := h
    unfold EStateM.bind readOne at hbind
    rcases hread : read la.source with ⟨e | u, s⟩ <;> rw [hread] at hbind
    · cases hbind
    · have := ih hbind
      rwa [List.length_append, List.length_singleton, Nat.add_right_comm, Nat.add_assoc] at this

/-- A token that is looked at has its place in the buffer. -/
theorem getElem?_of_peekAt (h : (call read (.peekAt k) la).1 = .ok t) :
    (call read (.peekAt k) la).2.buffer[k]? = some t := by
  cases hbuffer : la.buffer[k]? with
  | some u =>
    rw [call_peekAt_of_some hbuffer] at h ⊢
    cases h
    exact hbuffer
  | none =>
    rw [call_peekAt_of_none hbuffer] at h ⊢
    cases hread : readOn read (k - la.buffer.length) la with
    | error e la' =>
      rw [hread] at h
      cases h
    | ok u la' =>
      rw [hread] at h
      cases h
      have hlast := getElem?_of_readOn hread
      rwa [Nat.add_sub_cancel' (List.getElem?_eq_none_iff.1 hbuffer)] at hlast

variable (read) in
/-- **What is in the buffer can be taken**, whatever is looked at in between. -/
theorem lt_length_taken {i : Nat} (hbuffer : i < la.buffer.length) (hcount : i < calls.count .advance) :
    i < (taken read la calls).length := by
  induction calls generalizing la i with
  | nil => exact absurd hcount (Nat.not_lt_zero i)
  | cons c calls ih =>
    rw [taken_cons, List.length_append]
    cases c with
    | peekAt k =>
      rw [List.count_cons_of_ne (by simp)] at hcount
      have hgrown := Nat.lt_of_lt_of_le hbuffer (buffer_prefix_of_peekAt read k la).length_le
      exact Nat.lt_of_lt_of_le (ih hgrown hcount) (Nat.le_add_left _ _)
    | advance =>
      obtain ⟨source, _ | ⟨u, buffer⟩⟩ := la
      · exact absurd hbuffer (Nat.not_lt_zero i)
      · rw [List.count_cons_self] at hcount
        change i < 1 + (taken read ⟨source, buffer⟩ calls).length
        cases i with
        | zero => omega
        | succ i =>
          have hrest : i < (taken read ⟨source, buffer⟩ calls).length :=
            ih (Nat.lt_of_succ_lt_succ hbuffer) (Nat.lt_of_succ_lt_succ hcount)
          omega

/-- What has its place in the buffer is taken in its turn. -/
theorem getElem?_taken {i : Nat} (h : la.buffer[i]? = some t) (hcount : i < calls.count .advance) :
    (taken read la calls)[i]? = some t := by
  obtain ⟨n, hreads⟩ := calls_read read la calls
  have hlt := lt_length_taken read (List.getElem?_eq_some_iff.1 h).1 hcount
  have hall : (taken read la calls ++ (behind read la calls).buffer)[i]? = some t := by
    rw [← hreads.tokens, List.getElem?_append_left (List.getElem?_eq_some_iff.1 h).1, h]
  rwa [List.getElem?_append_left hlt] at hall

/-- **Looking ahead loses, doubles and reorders nothing.** Behind any calls, the source has given some answers: their tokens
are those taken so far, then those in the buffer, and their faults those reported so far. The next call reads some more
answers, and reports the fault among them. If it looks ahead it removes no token, and a token that it gives in place `i`
is the one that is returned in place `i` by the calls of `advance` that come later, whatever else is called between
them. -/
theorem calls_in_order (read : σ → Except ParseError Token × σ) (s : σ) (calls : List Call) (c : Call) :
    let la := behind read (ofSource s) calls
    let reply := (call read c la).1
    let la' := (call read c la).2
    ∃ n k, la.source = sourceAfter read n s ∧ la'.source = sourceAfter read (n + k) s ∧
      tokens (answers read n s) = taken read (ofSource s) calls ++ la.buffer ∧
      faults (answers read n s) = reported read (ofSource s) calls ∧
      faults (answers read k la.source) = faults [reply] ∧
      ∀ i, c = .peekAt i → la.buffer <+: la'.buffer ∧
        ∀ t, reply = .ok t → ∀ later : List Call, i < later.count .advance → (taken read la' later)[i]? = some t := by
  intro la reply la'
  obtain ⟨n, hbefore⟩ := calls_read read (ofSource s) calls
  obtain ⟨k, hcall⟩ := call_reads read c la
  refine ⟨n, k, hbefore.source, ?_, hbefore.tokens, hbefore.faults, hcall.faults, ?_⟩
  · rw [sourceAfter_add]
    exact hbefore.source ▸ hcall.source
  · rintro i rfl
    exact ⟨buffer_prefix_of_peekAt read i la, fun t ht later hcount => getElem?_taken (getElem?_of_peekAt ht) hcount⟩

/-- A fault stops a look at the second token; the next look comes to the token behind the fault, which is then taken
second. -/
theorem calls_in_order_behind_fault :
    let la := behind Cursor.next (ofSource (.ofString "a # b;")) [.peekAt 1]
    let reply := (call Cursor.next (.peekAt 1) la).1
    let la' := (call Cursor.next (.peekAt 1) la).2
    reply = .ok ⟨.identifier "b", ⟨1, 5, 4⟩, 5⟩ ∧ reported Cursor.next (ofSource (.ofString "a # b;")) [.peekAt 1] =
      [⟨.unexpectedCharacter '#', ⟨1, 3, 2⟩⟩] ∧
    (taken Cursor.next la' [.advance, .peekAt 3, .advance])[1]? = some ⟨.identifier "b", ⟨1, 5, 4⟩, 5⟩ := by
  intro la reply la'
  have hreply : reply = .ok ⟨.identifier "b", ⟨1, 5, 4⟩, 5⟩ := by decide +kernel
  have hreported : reported Cursor.next (ofSource (.ofString "a # b;")) [.peekAt 1] =
      [⟨.unexpectedCharacter '#', ⟨1, 3, 2⟩⟩] := by decide +kernel
  obtain ⟨n, k, -, -, -, -, -, hlook⟩ := calls_in_order Cursor.next (.ofString "a # b;") [.peekAt 1] (.peekAt 1)
  exact ⟨hreply, hreported, (hlook 1 rfl).2 _ hreply [.advance, .peekAt 3, .advance] (by decide)⟩

end Lookahead

end Fool
