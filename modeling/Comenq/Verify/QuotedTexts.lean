import Comenq.Client.Run
import Comenq.Verify.AwaitFrames

/-!
# Texts that errors repeat

Three errors of the client repeat a text of another program: the message of an error reply, the
message of an error event, and what the deserializer says of a reply that it does not accept. `Sent`
says which texts a command is sent, in terms of the daemon's replies and of the bytes of its stream,
and `quotes_run_iff` that the command fails with an error that repeats a text exactly if it is sent
that text: nothing is changed or dropped on the way, and nothing else is repeated.
-/

namespace Comenq

open JsonText LineLog LineReader

/-- The text of another program that an error repeats. -/
def ClientError.quoted (decodeError : String) : ClientError → Option String
  | serialize => some decodeError
  | awaitRejected message => some message
  | daemon message => some message
  | _ => none

/-- A command that ends with an error that repeats the text. -/
def Quotes (decodeError : String) (result : Option (Except ClientError Unit))
    (text : String) : Prop :=
  ∃ err, result = some (.error err) ∧ err.quoted decodeError = some text

/-! ## What a command is sent -/

/-- The reply to the `k`-th request, if both are within the limits. -/
def Replies (s : Surroundings) (k : ℕ) (request : Request) (reply : Bytes) : Prop :=
  request.toVec.length ≤ maxRequestBytes ∧ reply = s.serve k request.toVec ∧
    reply.length ≤ maxResponseBytes

/-- The request for the page behind a cursor; only the first one carries the limit. -/
def pageRequest (limit : Option ℕ) (cursor : Option HistoryCursor) : Request :=
  .hist (if cursor.isNone then limit else none) cursor

/-- A client about to make its `k`-th request with this cursor comes to make the `j`-th one: the
replies before it are pages, each with a cursor that moves on. -/
inductive PageAsks (W : WireJson) (s : Surroundings) (limit : Option ℕ) :
    ℕ → Option HistoryCursor → ℕ → Request → Prop
  | here (k : ℕ) (cursor : Option HistoryCursor) :
    PageAsks W s limit k cursor k (pageRequest limit cursor)
  | next {k j : ℕ} {cursor : Option HistoryCursor} {request : Request} {reply : Bytes}
      {history : List HistoryEntry} {later : HistoryCursor}
      (replies : Replies s k (pageRequest limit cursor) reply)
      (page : W.response reply = some (.ok none none (some history) (some later)))
      (moved : cursor ≠ some later) (rest : PageAsks W s limit (k + 1) (some later) j request) :
      PageAsks W s limit k cursor j request

/-- The requests of a command; one for history pages makes at most `fuel` of them. -/
def Asks (W : WireJson) (s : Surroundings) (fuel : ℕ) : Command → ℕ → Request → Prop
  | .await _, _, _ => False
  | .hist limit, k, request => PageAsks W s limit 0 none k request ∧ k < fuel
  | command, k, request => k = 0 ∧ request = command.toRequest

/-- The reply to this request holds the text. -/
def Told (W : WireJson) (s : Surroundings) (decodeError : String) (k : ℕ) (request : Request)
    (text : String) : Prop :=
  ∃ reply, Replies s k request reply ∧
    (W.response reply = none ∧ text = decodeError ∨ W.response reply = some (.error text))

/-- The stream delivers the event behind waiting frames. -/
inductive Arrives (R : AwaitJson) : Bytes → AwaitEvent → Prop
  | here {line rest : Bytes} {event : AwaitEvent} (undivided : nl ∉ line)
      (size : line.length < maxAwaitFrameBytes) (decoded : R.event (line ++ [nl]) = some event) :
      Arrives R (line ++ nl :: rest) event
  | later {line rest : Bytes} {etaSeconds : UInt64} {event : AwaitEvent} (undivided : nl ∉ line)
      (size : line.length < maxAwaitFrameBytes)
      (decoded : R.event (line ++ [nl]) = some (.waiting etaSeconds))
      (behind : Arrives R rest event) : Arrives R (line ++ nl :: rest) event

/-- The stream is a single reply in place of a first frame, and refuses the request. -/
def Rejects (R : AwaitJson) (bytes : Bytes) (message : String) : Prop :=
  nl ∉ bytes ∧ bytes.length ≤ maxAwaitFrameBytes ∧ R.response bytes = some (.error message)

/-- The texts of other programs that a command is sent: with a reply, with an event of its stream or
with a rejection in place of the stream. -/
inductive Sent (W : WireJson) (R : AwaitJson) (s : Surroundings) (fuel : ℕ) (decodeError : String) :
    Command → String → Prop
  | replied {command : Command} {k : ℕ} {request : Request} {text : String}
      (asks : Asks W s fuel command k request) (told : Told W s decodeError k request text) :
      Sent W R s fuel decodeError command text
  | failed {id message : String} (fits : (Request.await id).toVec.length ≤ maxRequestBytes)
      (arrives : Arrives R s.stream.flatten (.error message)) :
      Sent W R s fuel decodeError (.await id) message
  | rejected {id message : String} (fits : (Request.await id).toVec.length ≤ maxRequestBytes)
      (rejects : Rejects R s.stream.flatten message) :
      Sent W R s fuel decodeError (.await id) message

/-! ## One exchange -/

section Exchange

variable {W : WireJson} {s : Surroundings} {k : ℕ} {request : Request} {decodeError text : String}

/-- An exchange ends with the decoded reply, or without one and with an error that repeats
nothing. -/
theorem transact_cases (W : WireJson) (s : Surroundings) (k : ℕ) (request : Request) :
    (∃ reply, Replies s k request reply ∧
      transact W (s.serve k) request = (W.response reply).elim (.error .serialize) .ok) ∨
    (∀ reply, ¬ Replies s k request reply) ∧
      ∃ err, transact W (s.serve k) request = .error err ∧ ∀ text, err.quoted text = none := by
  unfold transact Replies
  by_cases hrequest : request.toVec.length > maxRequestBytes
  · rw [if_pos hrequest]
    exact Or.inr ⟨fun _ h => absurd h.1 (Nat.not_le.2 hrequest), _, rfl, fun _ => rfl⟩
  · rw [if_neg hrequest]
    by_cases hreply : (s.serve k request.toVec).length > maxResponseBytes
    · rw [if_pos hreply]
      refine Or.inr ⟨?_, _, rfl, fun _ => rfl⟩
      rintro _ ⟨-, rfl, hle⟩
      exact absurd hle (Nat.not_le.2 hreply)
    · rw [if_neg hreply]
      refine Or.inl ⟨_, ⟨Nat.le_of_not_gt hrequest, rfl, Nat.le_of_not_gt hreply⟩, ?_⟩
      cases W.response (s.serve k request.toVec) <;> rfl

theorem told_iff {reply : Bytes} (h : Replies s k request reply) :
    Told W s decodeError k request text ↔
      W.response reply = none ∧ text = decodeError ∨ W.response reply = some (.error text) := by
  constructor
  · rintro ⟨reply', h', htold⟩
    rw [h.2.1, ← h'.2.1]
    exact htold
  · intro htold
    exact ⟨reply, h, htold⟩

@[simp] theorem quotes_error_iff {err : ClientError} :
    Quotes decodeError (some (.error err)) text ↔ err.quoted decodeError = some text := by
  constructor
  · rintro ⟨err', heq, hquoted⟩
    obtain rfl := Except.error.inj (Option.some.inj heq)
    exact hquoted
  · intro hquoted
    exact ⟨err, rfl, hquoted⟩

@[simp] theorem not_quotes_ok {u : Unit} : ¬ Quotes decodeError (some (.ok u)) text := by
  rintro ⟨err, heq, -⟩
  cases heq

theorem not_quotes {err : ClientError} (h : ∀ text, err.quoted text = none) :
    ¬ Quotes decodeError (some (.error err)) text := by
  rw [quotes_error_iff, h]
  exact fun hnone => by cases hnone

/-- A reply that is not an error is printed or unexpected. -/
theorem renderResponse_error {command : Command} {entry : Option PendingEntry}
    {entries : Option (List PendingEntry)} {history : Option (List HistoryEntry)} {now : UInt64}
    {err : ClientError} (h : renderResponse command entry entries history now = .error err) :
    err = .unexpectedResponse := by
  unfold renderResponse at h
  split at h <;> cases h
  rfl

theorem quotes_runOnce_iff (command : Command) :
    Quotes decodeError (runOnce W s command).result text ↔
      Told W s decodeError 0 command.toRequest text := by
  unfold runOnce
  rcases transact_cases W s 0 command.toRequest with ⟨reply, hreply, hrun⟩ |
    ⟨hno, err, hrun, hquoted⟩
  · rw [told_iff hreply]
    cases hresponse : W.response reply with
    | none =>
      rw [hresponse, Option.elim_none] at hrun
      simp [hrun, Printed.failed, ClientError.quoted, eq_comm]
    | some response =>
      rw [hresponse, Option.elim_some] at hrun
      rw [hrun]
      cases response with
      | error message => simp [renderReply, Printed.failed, ClientError.quoted]
      | ok entry entries history nextCursor =>
        refine iff_of_false ?_ (by simp)
        simp only [renderReply]
        split
        · next err herr =>
          rw [renderResponse_error herr]
          exact not_quotes fun _ => rfl
        · exact not_quotes_ok
  · rw [hrun]
    exact iff_of_false (not_quotes hquoted) fun ⟨reply, hreply, _⟩ => hno reply hreply

end Exchange

/-! ## History pages -/

section Paging

variable {W : WireJson} {s : Surroundings} {limit : Option ℕ} {decodeError text : String}

theorem PageAsks.le {k j : ℕ} {cursor : Option HistoryCursor} {request : Request}
    (h : PageAsks W s limit k cursor j request) : k ≤ j := by
  induction h with
  | here => exact Nat.le_refl _
  | next _ _ _ _ ih => exact Nat.le_of_succ_le ih

/-- One of the next replies holds the text. -/
def PageTells (W : WireJson) (s : Surroundings) (limit : Option ℕ) (decodeError text : String)
    (fuel k : ℕ) (cursor : Option HistoryCursor) : Prop :=
  ∃ j request, PageAsks W s limit k cursor j request ∧ j < k + fuel ∧
    Told W s decodeError j request text

/-- The next reply holds it, or it is a page and a later one does. -/
theorem pageTells_succ_iff {fuel k : ℕ} {cursor : Option HistoryCursor} {reply : Bytes}
    (hreply : Replies s k (pageRequest limit cursor) reply) :
    PageTells W s limit decodeError text (fuel + 1) k cursor ↔
      Told W s decodeError k (pageRequest limit cursor) text ∨
      ∃ history later, W.response reply = some (.ok none none (some history) (some later)) ∧
        cursor ≠ some later ∧ PageTells W s limit decodeError text fuel (k + 1) (some later) := by
  constructor
  · rintro ⟨j, request, hpages, hj, htold⟩
    cases hpages with
    | here => exact Or.inl htold
    | @next _ _ _ _ reply' history later hreply' hpage hmoved hrest =>
      rw [hreply'.2.1, ← hreply.2.1] at hpage
      exact Or.inr ⟨history, later, hpage, hmoved, j, request, hrest, by omega, htold⟩
  · rintro (htold | ⟨history, later, hpage, hmoved, j, request, hrest, hj, htold⟩)
    · exact ⟨k, _, .here k cursor, by omega, htold⟩
    · exact ⟨j, request, .next hreply hpage hmoved hrest, by omega, htold⟩

/-- The end of a run after a page: the cursor has not moved, there is another page, or there is
none. -/
theorem quotes_page_iff {fuel : ℕ} (k : ℕ) {cursor nextCursor : Option HistoryCursor}
    {request : Request} {rendered : List (List HistoryEntry)} {found : Bool}
    (ih : ∀ (k : ℕ) (cursor : Option HistoryCursor) (found : Bool), Quotes decodeError
        (runHistoryPages (fun k => transact W (s.serve k)) limit fuel k cursor found).result text ↔
      PageTells W s limit decodeError text fuel k cursor) :
    Quotes decodeError
        (if cursor.isSome && nextCursor == cursor then
          ⟨rendered, [request], some (.error .unexpectedResponse)⟩
        else HistoryRun.after request rendered
          (nextCursor.elim ⟨if found then [] else [[]], [], some (.ok ())⟩ fun next =>
            runHistoryPages (fun k => transact W (s.serve k)) limit fuel (k + 1) (some next)
              found)).result
        text ↔
      ∃ later, nextCursor = some later ∧ cursor ≠ some later ∧
        PageTells W s limit decodeError text fuel (k + 1) (some later) := by
  split
  · next hstuck =>
    rw [Bool.and_eq_true, beq_iff_eq] at hstuck
    refine iff_of_false (not_quotes fun _ => rfl) ?_
    rintro ⟨later, rfl, hmoved, -⟩
    exact hmoved hstuck.2.symm
  · next hmoved =>
    cases nextCursor with
    | none =>
      refine iff_of_false not_quotes_ok ?_
      rintro ⟨later, hnone, -⟩
      cases hnone
    | some next =>
      have hne : cursor ≠ some next := by
        rintro rfl
        simp at hmoved
      simp only [HistoryRun.after, Option.elim_some, ih, Option.some.injEq]
      constructor
      · intro h
        exact ⟨next, rfl, hne, h⟩
      · rintro ⟨later, rfl, -, h⟩
        exact h

theorem quotes_runHistoryPages_iff (fuel k : ℕ) (cursor : Option HistoryCursor) (found : Bool) :
    Quotes decodeError
        (runHistoryPages (fun k => transact W (s.serve k)) limit fuel k cursor found).result text ↔
      PageTells W s limit decodeError text fuel k cursor := by
  induction fuel generalizing k cursor found with
  | zero =>
    refine iff_of_false (fun ⟨err, heq, _⟩ => by cases heq) ?_
    rintro ⟨j, request, hpages, hj, -⟩
    have := hpages.le
    omega
  | succ fuel ih =>
    unfold runHistoryPages
    simp only
    rcases transact_cases W s k (pageRequest limit cursor) with ⟨reply, hreply, hrun⟩ |
      ⟨hno, err, hrun, hquoted⟩
    · rw [pageTells_succ_iff hreply, told_iff hreply]
      unfold pageRequest at hrun
      cases hresponse : W.response reply with
      | none =>
        rw [hresponse, Option.elim_none] at hrun
        rw [hrun]
        simp [ClientError.quoted, eq_comm]
      | some response =>
        rw [hresponse, Option.elim_some] at hrun
        rw [hrun]
        cases response with
        | error message => simp [ClientError.quoted]
        | ok entry entries history nextCursor =>
          -- only a page without other fields is expected here
          cases entry with
          | some entry => exact iff_of_false (not_quotes fun _ => rfl) (by simp)
          | none =>
            cases entries with
            | some entries => exact iff_of_false (not_quotes fun _ => rfl) (by simp)
            | none =>
              cases history with
              | none => exact iff_of_false (not_quotes fun _ => rfl) (by simp)
              | some history =>
                cases nextCursor with
                | none => exact (quotes_page_iff k ih).trans (by simp)
                | some next => exact (quotes_page_iff k ih).trans (by simp)
    · unfold pageRequest at hrun
      rw [hrun]
      refine iff_of_false (not_quotes hquoted) ?_
      rintro ⟨j, request, hpages, -, reply, hreply, -⟩
      cases hpages with
      | here => exact hno reply hreply
      | next hreply' _ _ _ => exact hno _ hreply'

end Paging

/-! ## Streams -/

section Stream

variable {R : AwaitJson} {stream left : List Bytes} {decodeError text : String}

/-- What reading a frame gives: a line within the limit, decoded or not, a stream that ends before
one, or too much. -/
theorem readFrame_cases (R : AwaitJson) (stream : List Bytes) :
    (∃ line left, stream.flatten = line ++ nl :: left.flatten ∧ nl ∉ line ∧
      line.length < maxAwaitFrameBytes ∧ readFrame R stream =
        ((R.event (line ++ [nl])).elim (.error .unexpectedResponse) fun event => .ok (.frame event),
          left)) ∨
    (nl ∉ stream.flatten ∧ stream.flatten.length ≤ maxAwaitFrameBytes ∧
      (readFrame R stream).1 = .ok (.ended stream.flatten)) ∨
    (maxAwaitFrameBytes < stream.flatten.length ∧
      (readFrame R stream).1 = .error .replyTooLarge) := by
  by_cases hmem : nl ∈ stream.flatten.take maxAwaitFrameBytes
  · obtain ⟨line, rest, htake, hn⟩ := List.eq_append_cons_of_mem hmem
    have hsize : line.length < maxAwaitFrameBytes := by
      have hlength := congrArg List.length htake
      simp only [List.length_take, List.length_append, List.length_cons] at hlength
      omega
    have hs : stream.flatten = line ++ nl :: (rest ++ stream.flatten.drop maxAwaitFrameBytes) := by
      conv_lhs => rw [← List.take_append_drop maxAwaitFrameBytes stream.flatten, htake]
      simp
    obtain ⟨left, hleft, hread⟩ := readFrame_line R hn hsize hs
    exact Or.inl ⟨line, left, by rw [hleft, ← hs], hn, hsize, hread⟩
  · right
    unfold readFrame
    simp only
    by_cases hsize : stream.flatten.length ≤ maxAwaitFrameBytes
    · left
      rw [List.take_of_length_le hsize] at hmem
      have hread : (readUntil nl (maxAwaitFrameBytes + 1) stream).1 = stream.flatten := by
        have htake := List.take_of_length_le (hsize.trans (Nat.le_succ _))
        rw [readUntil_undelimited (by rwa [htake]), htake]
      have hlast : stream.flatten.getLast? ≠ some nl := fun h => hmem (List.mem_of_getLast? h)
      exact ⟨hmem, hsize, by rw [hread, if_neg (Nat.not_lt.2 hsize), if_pos hlast]⟩
    · right
      rw [Nat.not_le] at hsize
      -- the byte behind the limit is read too, whatever it is
      have hread : (readUntil nl (maxAwaitFrameBytes + 1) stream).1.length >
          maxAwaitFrameBytes := by
        rw [readUntil_line, List.take_succ_eq_append_getElem hsize,
          firstLine_append_of_not_mem hmem, List.length_append, List.length_take,
          Nat.min_eq_left hsize.le]
        refine Nat.lt_add_of_pos_right (List.length_pos_of_ne_nil ?_)
        simp [firstLine]
      exact ⟨hsize, by rw [if_pos hread]⟩

/-- An error of reading a frame repeats nothing. -/
theorem quoted_of_readFrame {err : ClientError} (h : readFrame R stream = (.error err, left))
    (text : String) : err.quoted text = none := by
  rcases readFrame_cases R stream with ⟨line, left', -, -, -, hread⟩ | ⟨-, -, hread⟩ | ⟨-, hread⟩
  · rw [hread] at h
    cases hevent : R.event (line ++ [nl]) <;> rw [hevent] at h <;> cases h
    rfl
  · rw [h] at hread
    cases hread
  · rw [h] at hread
    cases hread
    rfl

/-- Nothing arrives without a frame. -/
theorem Arrives.frame {event : AwaitEvent} (h : Arrives R stream.flatten event) :
    ∃ first left, readFrame R stream = (.ok (.frame first), left) ∧
      (first = event ∨ first.isWaiting = true ∧ Arrives R left.flatten event) := by
  generalize hs : stream.flatten = bytes at h
  cases h with
  | here hn hsize hdecoded =>
    obtain ⟨left, -, hread⟩ := readFrame_line R hn hsize hs
    rw [hdecoded] at hread
    exact ⟨event, left, hread, Or.inl rfl⟩
  | later hn hsize hdecoded hbehind =>
    obtain ⟨left, rfl, hread⟩ := readFrame_line R hn hsize hs
    rw [hdecoded] at hread
    exact ⟨_, left, hread, Or.inr ⟨rfl, hbehind⟩⟩

theorem not_arrives {event : AwaitEvent}
    (h : ∀ first left, readFrame R stream ≠ (.ok (.frame first), left)) :
    ¬ Arrives R stream.flatten event := by
  intro harrives
  obtain ⟨first, left, hread, -⟩ := harrives.frame
  exact h first left hread

/-- An event arrives with the first frame, or behind it if that is a waiting one. -/
theorem arrives_iff {first event : AwaitEvent}
    (h : readFrame R stream = (.ok (.frame first), left)) :
    Arrives R stream.flatten event ↔
      first = event ∨ first.isWaiting = true ∧ Arrives R left.flatten event := by
  constructor
  · intro harrives
    obtain ⟨first', left', hread, hcases⟩ := harrives.frame
    rw [h] at hread
    cases hread
    exact hcases
  · rcases readFrame_cases R stream with ⟨line, left', hs, hn, hsize, hread⟩ |
      ⟨-, -, hread⟩ | ⟨-, hread⟩
    · rw [h] at hread
      cases hdecoded : R.event (line ++ [nl]) with
      | none =>
        rw [hdecoded] at hread
        cases hread
      | some decoded =>
        rw [hdecoded] at hread
        cases hread
        rw [hs]
        rintro (rfl | ⟨hwaiting, hbehind⟩)
        · exact .here hn hsize hdecoded
        · cases first with
          | waiting etaSeconds => exact .later hn hsize hdecoded hbehind
          | posted commentUrl => cases hwaiting
          | error message => cases hwaiting
    · rw [h] at hread
      cases hread
    · rw [h] at hread
      cases hread

/-- A rejection is read as a stream that ends before a frame. -/
theorem Rejects.ended {message : String} (h : Rejects R stream.flatten message) :
    (readFrame R stream).1 = .ok (.ended stream.flatten) := by
  obtain ⟨hn, hsize, -⟩ := h
  rcases readFrame_cases R stream with ⟨line, left, hs, -, -, -⟩ | ⟨-, -, hread⟩ | ⟨hlarge, -⟩
  · exact absurd (by simp [hs]) hn
  · exact hread
  · exact absurd hsize (Nat.not_le.2 hlarge)

/-- A stream that ends before a frame is a rejection exactly if its bytes are an error reply. -/
theorem rejects_iff {bytes : Bytes} {message : String}
    (h : readFrame R stream = (.ok (.ended bytes), left)) :
    Rejects R stream.flatten message ↔ R.response bytes = some (.error message) := by
  rcases readFrame_cases R stream with ⟨line, left', -, -, -, hread⟩ |
    ⟨hn, hsize, hread⟩ | ⟨-, hread⟩
  · rw [h] at hread
    cases hdecoded : R.event (line ++ [nl]) <;> rw [hdecoded] at hread <;> cases hread
  · rw [h] at hread
    cases hread
    exact ⟨fun hr => hr.2.2, fun hr => ⟨hn, hsize, hr⟩⟩
  · rw [h] at hread
    cases hread

theorem quotes_classifyInitialEnd_iff {bytes : Bytes} :
    Quotes decodeError (some (.error (classifyInitialEnd R bytes))) text ↔
      R.response bytes = some (.error text) := by
  unfold classifyInitialEnd
  split <;> simp_all [ClientError.quoted]

/-- A stream makes `receive` repeat the message of the error event it delivers, or of a rejection
that comes before any frame. -/
theorem quotes_receive_iff (countdown : Option UInt64) (stream : List Bytes) :
    Quotes decodeError (some (receive R countdown stream).result) text ↔
      Arrives R stream.flatten (.error text) ∨
        countdown = none ∧ Rejects R stream.flatten text := by
  fun_induction receive R countdown stream with
  | case1 countdown stream err left h =>
    refine iff_of_false (not_quotes (quoted_of_readFrame h)) ?_
    rintro (harrives | ⟨-, hrejects⟩)
    · exact not_arrives (by simp [h]) harrives
    · simpa [h] using hrejects.ended
  | case2 countdown stream bytes left h hnone =>
    rw [quotes_classifyInitialEnd_iff, rejects_iff h, Option.isNone_iff_eq_none] at *
    rw [or_iff_right (not_arrives (by simp [h])), and_iff_right hnone]
  | case3 countdown stream bytes left h hsome =>
    refine iff_of_false (not_quotes fun _ => rfl) ?_
    rintro (harrives | ⟨rfl, -⟩)
    · exact not_arrives (by simp [h]) harrives
    · exact hsome rfl
  | case4 countdown stream left commentUrl h =>
    refine iff_of_false not_quotes_ok ?_
    rintro (harrives | ⟨-, hrejects⟩)
    · simpa [AwaitEvent.isWaiting] using (arrives_iff h).1 harrives
    · simpa [h] using hrejects.ended
  | case5 countdown stream left message h =>
    have hno : ¬ Rejects R stream.flatten text := fun hrejects => by simpa [h] using hrejects.ended
    simp [arrives_iff h, hno, ClientError.quoted, AwaitEvent.isWaiting]
  | case6 countdown stream left etaSeconds h later hlater ih =>
    have hno : ¬ Rejects R stream.flatten text := fun hrejects => by simpa [h] using hrejects.ended
    simpa [arrives_iff h, hno, AwaitEvent.isWaiting] using ih

end Stream

/-! ## Commands -/

section Commands

variable {W : WireJson} {R : AwaitJson} {s : Surroundings} {fuel : ℕ} {decodeError text : String}

theorem sent_await_iff {id : String} :
    Sent W R s fuel decodeError (.await id) text ↔
      (Request.await id).toVec.length ≤ maxRequestBytes ∧
        (Arrives R s.stream.flatten (.error text) ∨ Rejects R s.stream.flatten text) := by
  constructor
  · intro h
    cases h with
    | replied asks told => exact asks.elim
    | failed fits arrives => exact ⟨fits, Or.inl arrives⟩
    | rejected fits rejects => exact ⟨fits, Or.inr rejects⟩
  · rintro ⟨fits, arrives | rejects⟩
    · exact .failed fits arrives
    · exact .rejected fits rejects

theorem sent_iff_told {command : Command} (hc : ∀ id, command ≠ .await id) :
    Sent W R s fuel decodeError command text ↔
      ∃ k request, Asks W s fuel command k request ∧ Told W s decodeError k request text := by
  constructor
  · intro h
    cases h with
    | replied asks told => exact ⟨_, _, asks, told⟩
    | failed fits arrives => exact absurd rfl (hc _)
    | rejected fits rejects => exact absurd rfl (hc _)
  · rintro ⟨k, request, asks, told⟩
    exact .replied asks told

/-- A command fails with an error that repeats a text exactly if it is sent that text. -/
theorem quotes_run_iff (command : Command) :
    Quotes decodeError (run W R s fuel command).result text ↔
      Sent W R s fuel decodeError command text := by
  cases command with
  | await id =>
    rw [sent_await_iff]
    unfold run runAwait
    simp only
    split
    · next hlarge =>
      exact iff_of_false (not_quotes fun _ => rfl) fun h => Nat.not_le.2 hlarge h.1
    · next hfits =>
      rw [quotes_receive_iff, and_iff_right (Nat.not_lt.1 hfits), eq_self, true_and]
  | hist limit =>
    rw [sent_iff_told (by simp)]
    refine (quotes_runHistoryPages_iff fuel 0 none false).trans ?_
    simp only [PageTells, Asks, Nat.zero_add, and_assoc]
  | _ =>
    rw [sent_iff_told (by simp)]
    simp only [run, Asks, and_assoc, exists_and_left, exists_eq_left]
    exact quotes_runOnce_iff _

end Commands

end Comenq
