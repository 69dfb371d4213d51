import Datawatch.Library.Transition
import Datawatch.Capture.LoopSteps

/-!
# Handovers

The live loop with the venue on the other end of its sockets.  The venue pushes what happens to
every socket whose subscription it has processed, and the loop reads one socket at a time, so what
it hands over to may not hold what the closed socket held.
-/

namespace Datawatch
namespace Capture

open Library Library.Transition Wire Record Ingest

/-- One thing the venue pushes of a pair, in the order of what it pushes. -/
structure Push where
  index : Nat
  pair : Pair
  bytes : List UInt8
  atMicros : Int
deriving DecidableEq

/-- A socket from the venue's side: what was asked for on it, what of that the venue has processed,
and the frames the loop has not read. -/
structure VenueSocket where
  sent : List Pair := []
  processed : List Pair := []
  unread : List Push := []

namespace VenueSocket

/-- The venue pushes to a socket whose subscription it has processed. -/
def push (socket : VenueSocket) (pushed : Push) : VenueSocket :=
  if pushed.pair ∈ socket.processed then { socket with unread := socket.unread ++ [pushed] }
  else socket

/-- The venue processes a subscription that was sent. -/
def process (socket : VenueSocket) (pair : Pair) : Option VenueSocket :=
  if pair ∈ socket.sent then some { socket with processed := pair :: socket.processed } else none

end VenueSocket

/-- The loop, the sockets it holds, and what was seen of them. -/
structure Exchange where
  loop : Loop
  current : VenueSocket := {}
  replacement : Option VenueSocket := none
  /-- The pairs the venue pushed on a socket that is closed now, and not yet on the current one. -/
  lapsed : List Pair := []
  pushes : Nat := 0
  /-- What was pushed to the current socket before it was closed, and what would have been from then
  until the replacement's subscription is processed. -/
  due : List Push := []
  /-- What the loop took. -/
  taken : List Push := []
  published : List (Ticker × Gap) := []

/-- One move of the loop, or of the venue. -/
inductive Move
  | happened (happening : Happening)
  | pushed (pair : Pair) (bytes : List UInt8) (atMicros : Int)
  | processed (onReplacement : Bool) (pair : Pair)
  | read (nowMicros : Int)

namespace Loop

/-- Whether no socket fails: the connection opens and takes every subscription and keepalive.  A
replacement may fail to open. -/
def Healthy (loop : Loop) : Happening → Prop
  | .reported .. | .page _ | .connectFailed | .idle => True
  | .connected _ sent _ => ∀ pair ∈ loop.held.declared, pair ∈ sent
  | .turned nowMicros succeeds _ => loop.due nowMicros = .keepalive → succeeds = true
  | .archiveFailed _ | .frame .. | .lost _ | .cancelled => False

instance (loop : Loop) : ∀ happening, Decidable (loop.Healthy happening)
  | .reported .. | .page _ | .connectFailed | .idle => isTrue trivial
  | .connected .. => inferInstanceAs (Decidable (∀ pair ∈ loop.held.declared, _))
  | .turned .. => inferInstanceAs (Decidable (_ → _))
  | .archiveFailed _ | .frame .. | .lost _ | .cancelled => isFalse id

end Loop

namespace Exchange

variable (seam : Seam) (policy : ConnectionPolicy)

/-- Nothing has happened. -/
def start (clipped : Clipped) : Exchange := { loop := Loop.start seam clipped }

/-- What a happening of the loop does to its sockets. -/
def sockets (exchange : Exchange) : Happening → Exchange
  | .connected .. => { exchange with current := { sent := seam.declared } }
  | .turned nowMicros succeeds _ =>
      match exchange.loop.due nowMicros with
      | .openReplacement =>
          if succeeds then { exchange with replacement := some { sent := seam.declared } }
          else exchange
      | .closeReplaced =>
          match exchange.replacement with
          | some opened =>
              { exchange with
                current := opened
                replacement := none
                lapsed := (exchange.current.processed ++ exchange.lapsed).filter fun pair =>
                  pair ∉ opened.processed
                due := exchange.due ++ opened.unread }
          | none => exchange
      | .keepalive | .wait => exchange
  | .reported .. | .page _ | .connectFailed | .archiveFailed _ | .frame .. | .idle | .lost _
  | .cancelled => exchange

/-- The exchange one move leads to, or none where it cannot be made. -/
def step (exchange : Exchange) : Move → Option Exchange
  | .happened happening =>
      if exchange.loop.Healthy happening then
        (exchange.loop.step seam policy happening).map fun next =>
          { exchange.sockets seam happening with
            loop := next.1
            published := exchange.published ++ next.2 }
      else none
  | .pushed pair bytes atMicros =>
      let pushed : Push := ⟨exchange.pushes, pair, bytes, atMicros⟩
      some { exchange with
        current := exchange.current.push pushed
        replacement := exchange.replacement.map fun opened => opened.push pushed
        pushes := exchange.pushes + 1
        due :=
          if pair ∈ exchange.current.processed ∨ pair ∈ exchange.lapsed then
            exchange.due ++ [pushed]
          else exchange.due }
  | .processed true pair =>
      (exchange.replacement.bind fun opened => opened.process pair).map fun opened =>
        { exchange with replacement := some opened }
  | .processed false pair =>
      (exchange.current.process pair).map fun current =>
        { exchange with
          current := current
          lapsed := exchange.lapsed.filter fun other => other ≠ pair }
  | .read nowMicros =>
      match exchange.current.unread with
      | [] => none
      | pushed :: unread =>
          (exchange.loop.step seam policy (.frame pushed.bytes nowMicros)).map fun next =>
            { exchange with
              loop := next.1
              current := { exchange.current with unread := unread }
              taken := exchange.taken ++ [pushed]
              published := exchange.published ++ next.2 }

/-- A moment of a pair lies inside a gap published for it. -/
def InGap (exchange : Exchange) (pair : Pair) (atMicros : Int) : Prop :=
  ∃ gap ∈ gapsOf pair exchange.published, gap.1 ≤ atMicros ∧ atMicros < gap.2

/-- A push was taken, or waits on a socket the loop reads or goes on to, or lies inside a gap. -/
def Accounts (exchange : Exchange) (pushed : Push) : Prop :=
  pushed ∈ exchange.taken ∨ pushed ∈ exchange.current.unread ∨
    (∃ opened ∈ exchange.replacement, pushed ∈ opened.unread) ∨
      exchange.InGap pushed.pair pushed.atMicros

/-- **Nothing is lost silently**: everything due is taken, will be read, or lies inside a gap. -/
def LosesNothing (exchange : Exchange) : Prop := ∀ pushed ∈ exchange.due, exchange.Accounts pushed

/-- What loses nothing, at one move.  Where the loop closes the socket it replaces, each frame
unread on it was taken before, or pushed to the replacement too; and nothing is pushed of a pair
between that and the venue processing its subscription on the replacement. -/
def Keeps (exchange : Exchange) : Move → Prop
  | .happened (.turned nowMicros _ _) =>
      exchange.loop.due nowMicros = .closeReplaced → ∀ opened ∈ exchange.replacement,
        ∀ pushed ∈ exchange.current.unread, pushed ∈ exchange.taken ∨ pushed ∈ opened.unread ∨
          exchange.InGap pushed.pair pushed.atMicros
  | .pushed pair _ atMicros =>
      pair ∈ exchange.lapsed → (∃ opened ∈ exchange.replacement, pair ∈ opened.processed) ∨
        exchange.InGap pair atMicros
  | .happened _ | .processed .. | .read _ => True

instance (exchange : Exchange) (pair : Pair) (atMicros : Int) :
    Decidable (exchange.InGap pair atMicros) :=
  inferInstanceAs (Decidable (∃ gap ∈ _, _ ∧ _))

instance (exchange : Exchange) (pushed : Push) : Decidable (exchange.Accounts pushed) :=
  inferInstanceAs (Decidable (_ ∨ _ ∨ (∃ opened ∈ _, _) ∨ _))

instance (exchange : Exchange) : ∀ move, Decidable (exchange.Keeps move)
  | .happened (.turned nowMicros _ _) =>
      inferInstanceAs (Decidable (exchange.loop.due nowMicros = .closeReplaced →
        ∀ opened ∈ exchange.replacement, ∀ pushed ∈ exchange.current.unread, _ ∨ _ ∨ _))
  | .pushed .. => inferInstanceAs (Decidable (_ → (∃ opened ∈ _, _) ∨ _))
  | .processed .. | .read _ => isTrue trivial
  | .happened (.reported ..) | .happened (.page _) | .happened .connectFailed
  | .happened (.connected ..) | .happened (.archiveFailed _) | .happened (.frame ..)
  | .happened .idle | .happened (.lost _) | .happened .cancelled => isTrue trivial

/-! ## What holds along every run -/

variable {seam : Seam} {policy : ConnectionPolicy} {exchange next : Exchange}

/-- What the sockets of a run are to what was due of it. -/
structure Sound (exchange : Exchange) : Prop where
  unreadDue : ∀ pushed ∈ exchange.current.unread, pushed ∈ exchange.due
  fresh : ∀ pushed ∈ exchange.due, pushed.index < exchange.pushes
  freshTaken : ∀ pushed ∈ exchange.taken, pushed.index < exchange.pushes
  freshOpened : ∀ opened ∈ exchange.replacement, ∀ pushed ∈ opened.unread,
    pushed.index < exchange.pushes
  apart : ∀ pair ∈ exchange.lapsed, pair ∉ exchange.current.processed
  handing : exchange.replacement.isSome → ∃ session ∈ exchange.loop.session,
    session.replacement = .subscribed
  unconnected : exchange.loop.phase ≠ .acting → exchange.loop.phase ≠ .reading →
    exchange.current = {} ∧ exchange.replacement = none ∧ exchange.lapsed = [] ∧ exchange.due = []

theorem sound_start (seam : Seam) (clipped : Clipped) : Sound (start seam clipped) where
  unreadDue := by simp [start]
  fresh := by simp [start]
  freshTaken := by simp [start]
  freshOpened := by simp [start]
  apart := by simp [start]
  handing := by simp [start]
  unconnected := fun _ _ => ⟨rfl, rfl, rfl, rfl⟩

/-- No replacement is open where one is due. -/
theorem Sound.replacement_eq_none (sound : exchange.Sound) {nowMicros : Int}
    (notDue : exchange.loop.due nowMicros ≠ .closeReplaced) : exchange.replacement = none := by
  cases isOpened : exchange.replacement with
  | none => rfl
  | some opened =>
      obtain ⟨session, isSession, subscribed⟩ := sound.handing (by rw [isOpened]; rfl)
      exact absurd subscribed (Loop.replacement_ne_of_due notDue session isSession)

/-- An exchange whose sockets and gaps are those of another accounts for the same pushes. -/
theorem losesNothing_congr (taken : next.taken = exchange.taken)
    (current : next.current = exchange.current)
    (replacement : next.replacement = exchange.replacement)
    (published : next.published = exchange.published) (due : next.due = exchange.due) :
    next.LosesNothing ↔ exchange.LosesNothing := by
  unfold LosesNothing Accounts InGap
  rw [taken, current, replacement, published, due]

/-- Nothing due is lost. -/
theorem losesNothing_of_nil (none : exchange.due = []) : exchange.LosesNothing := by
  intro pushed isDue
  rw [none] at isDue
  cases isDue

/-- A push waits on a socket that its pair's subscription is processed on. -/
theorem mem_unread_push_iff {socket : VenueSocket} {pushed made : Push} :
    pushed ∈ (socket.push made).unread ↔
      pushed ∈ socket.unread ∨ pushed = made ∧ made.pair ∈ socket.processed := by
  unfold VenueSocket.push
  split
  · rename_i isProcessed
    simp [isProcessed]
  · rename_i notProcessed
    simp [notProcessed]

/-- A push is accounted for beside what was, where a socket takes it. -/
theorem accounts_pushed_iff {pair : Pair} {bytes : List UInt8} {atMicros : Int}
    (stepped : exchange.step seam policy (.pushed pair bytes atMicros) = some next)
    (pushed : Push) :
    next.Accounts pushed ↔ exchange.Accounts pushed ∨
      pushed = ⟨exchange.pushes, pair, bytes, atMicros⟩ ∧
        (pair ∈ exchange.current.processed ∨
          ∃ opened ∈ exchange.replacement, pair ∈ opened.processed) := by
  obtain rfl := Option.some.inj stepped
  have opens : (∃ opened ∈ exchange.replacement.map fun opened =>
        opened.push ⟨exchange.pushes, pair, bytes, atMicros⟩, pushed ∈ opened.unread) ↔
      (∃ opened ∈ exchange.replacement, pushed ∈ opened.unread) ∨
        pushed = ⟨exchange.pushes, pair, bytes, atMicros⟩ ∧
          ∃ opened ∈ exchange.replacement, pair ∈ opened.processed := by
    cases exchange.replacement with
    | none => simp
    | some opened => simp [mem_unread_push_iff]
  unfold Accounts
  simp only [mem_unread_push_iff, opens]
  constructor
  · rintro (taken | (waits | ⟨rfl, isProcessed⟩) | (waits | ⟨rfl, isProcessed⟩) | inGap)
    · exact .inl (.inl taken)
    · exact .inl (.inr (.inl waits))
    · exact .inr ⟨rfl, .inl isProcessed⟩
    · exact .inl (.inr (.inr (.inl waits)))
    · exact .inr ⟨rfl, .inr isProcessed⟩
    · exact .inl (.inr (.inr (.inr inGap)))
  · rintro ((taken | waits | waits | inGap) | ⟨rfl, isProcessed | isProcessed⟩)
    · exact .inl taken
    · exact .inr (.inl (.inl waits))
    · exact .inr (.inr (.inl (.inl waits)))
    · exact .inr (.inr (.inr inGap))
    · exact .inr (.inl (.inr ⟨rfl, isProcessed⟩))
    · exact .inr (.inr (.inl (.inr ⟨rfl, isProcessed⟩)))

/-- **A push loses nothing exactly where its pair has not lapsed**, or the replacement takes it, or
it lies inside a gap. -/
theorem losesNothing_pushed_iff (sound : exchange.Sound) {pair : Pair} {bytes : List UInt8}
    {atMicros : Int}
    (stepped : exchange.step seam policy (.pushed pair bytes atMicros) = some next) :
    next.LosesNothing ↔
      exchange.LosesNothing ∧ exchange.Keeps (.pushed pair bytes atMicros) := by
  have accounts := accounts_pushed_iff stepped
  have isDue : next.due = if pair ∈ exchange.current.processed ∨ pair ∈ exchange.lapsed then
      exchange.due ++ [⟨exchange.pushes, pair, bytes, atMicros⟩] else exchange.due := by
    obtain rfl := Option.some.inj stepped
    rfl
  -- A push of before is none that is made now.
  have older {pushed : Push} (before : pushed.index < exchange.pushes) :
      pushed ≠ ⟨exchange.pushes, pair, bytes, atMicros⟩ := by
    rintro rfl
    exact absurd before (lt_irrefl _)
  constructor
  · intro loses
    refine ⟨?_, ?_⟩
    · intro pushed wasDue
      have stillDue : pushed ∈ next.due := by
        rw [isDue]
        split
        · exact List.mem_append_left _ wasDue
        · exact wasDue
      rcases (accounts pushed).mp (loses pushed stillDue) with before | ⟨isNew, _⟩
      · exact before
      · exact absurd isNew (older (sound.fresh pushed wasDue))
    · intro hasLapsed
      have newDue : (⟨exchange.pushes, pair, bytes, atMicros⟩ : Push) ∈ next.due := by
        rw [isDue, if_pos (.inr hasLapsed)]
        simp
      rcases (accounts _).mp (loses _ newDue) with
        (taken | waits | ⟨opened, isOpened, waits⟩ | inGap) | ⟨_, isProcessed | isProcessed⟩
      · exact absurd rfl (older (sound.freshTaken _ taken))
      · exact absurd rfl (older (sound.fresh _ (sound.unreadDue _ waits)))
      · exact absurd rfl (older (sound.freshOpened opened isOpened _ waits))
      · exact .inr inGap
      · exact absurd isProcessed (sound.apart pair hasLapsed)
      · exact .inl isProcessed
  · rintro ⟨loses, keeps⟩ pushed nowDue
    rw [accounts]
    rw [isDue] at nowDue
    split at nowDue
    · rename_i accountable
      rcases List.mem_append.mp nowDue with wasDue | isNew
      · exact .inl (loses pushed wasDue)
      · obtain rfl := List.mem_singleton.mp isNew
        rcases accountable with isProcessed | hasLapsed
        · exact .inr ⟨rfl, .inl isProcessed⟩
        · rcases keeps hasLapsed with isProcessed | inGap
          · exact .inr ⟨rfl, .inr isProcessed⟩
          · exact .inl (.inr (.inr (.inr inGap)))
    · exact .inl (loses pushed nowDue)

/-- **Closing the socket the loop replaces loses nothing exactly where its unread frames were taken
before, or pushed to the replacement too**, or lie inside a gap. -/
theorem losesNothing_turned_iff (sound : exchange.Sound) {nowMicros askedMicros : Int}
    {succeeds : Bool}
    (stepped : exchange.step seam policy (.happened (.turned nowMicros succeeds askedMicros)) =
      some next) :
    next.LosesNothing ↔
      exchange.LosesNothing ∧
        exchange.Keeps (.happened (.turned nowMicros succeeds askedMicros)) := by
  obtain ⟨_, turns⟩ := Option.ite_none_right_eq_some.mp stepped
  obtain ⟨⟨loop, rows⟩, isStep, rfl⟩ := Option.map_eq_some_iff.mp turns
  obtain ⟨_, isTurn⟩ := Option.ite_none_right_eq_some.mp isStep
  obtain ⟨rfl, rfl⟩ := Prod.mk.inj (Option.some.inj isTurn)
  simp only [Keeps, sockets, List.append_nil]
  cases isDue : exchange.loop.due nowMicros with
  | wait | keepalive =>
      simp only [reduceCtorEq, false_implies, and_true]
      exact losesNothing_congr rfl rfl rfl rfl rfl
  | openReplacement =>
      have noReplacement := @Sound.replacement_eq_none exchange sound nowMicros
        (by rw [isDue]; simp)
      simp only [reduceCtorEq, false_implies, and_true]
      split
      · apply forall₂_congr
        intro pushed _
        simp [Accounts, InGap, noReplacement]
      · exact losesNothing_congr rfl rfl rfl rfl rfl
  | closeReplaced =>
      simp only [forall_const]
      cases isOpened : exchange.replacement with
      | none =>
          simp only [Option.not_mem_none, false_implies, implies_true, and_true]
          exact losesNothing_congr rfl rfl rfl rfl rfl
      | some opened =>
          simp only [Option.mem_def, Option.some.injEq, forall_eq']
          constructor
          · intro loses
            refine ⟨?_, ?_⟩
            · intro pushed wasDue
              rcases loses pushed (List.mem_append_left _ wasDue) with
                taken | waits | ⟨_, isNone, _⟩ | inGap
              · exact .inl taken
              · exact .inr (.inr (.inl ⟨opened, isOpened, waits⟩))
              · cases isNone
              · exact .inr (.inr (.inr inGap))
            · intro pushed wasUnread
              rcases loses pushed (List.mem_append_left _ (sound.unreadDue pushed wasUnread)) with
                taken | waits | ⟨_, isNone, _⟩ | inGap
              · exact .inl taken
              · exact .inr (.inl waits)
              · cases isNone
              · exact .inr (.inr inGap)
          · rintro ⟨loses, keeps⟩ pushed nowDue
            rcases List.mem_append.mp nowDue with wasDue | waits
            · rcases loses pushed wasDue with
                taken | wasUnread | ⟨other, isOther, waits⟩ | inGap
              · exact .inl taken
              · rcases keeps pushed wasUnread with taken | waits | inGap
                · exact .inl taken
                · exact .inr (.inl waits)
                · exact .inr (.inr (.inr inGap))
              · obtain rfl := Option.some.inj (isOpened.symm.trans isOther)
                exact .inr (.inl waits)
              · exact .inr (.inr (.inr inGap))
            · exact .inr (.inl waits)

/-- **A read takes the head of what waits**, and loses nothing. -/
theorem losesNothing_read_iff {nowMicros : Int}
    (stepped : exchange.step seam policy (.read nowMicros) = some next) :
    next.LosesNothing ↔ exchange.LosesNothing := by
  simp only [step] at stepped
  split at stepped
  · cases stepped
  · rename_i head unread isUnread
    obtain ⟨⟨loop, rows⟩, isStep, rfl⟩ := Option.map_eq_some_iff.mp stepped
    obtain ⟨_, isTaken⟩ := Option.ite_none_right_eq_some.mp isStep
    obtain ⟨_, rfl⟩ := Prod.mk.inj (Option.some.inj isTaken)
    apply forall₂_congr
    intro pushed _
    simp only [Accounts, InGap, isUnread, List.append_nil, List.mem_append, List.mem_cons,
      List.not_mem_nil, or_false, or_assoc]

/-- Processing a subscription loses nothing. -/
theorem losesNothing_processed_iff {onReplacement : Bool} {pair : Pair}
    (stepped : exchange.step seam policy (.processed onReplacement pair) = some next) :
    next.LosesNothing ↔ exchange.LosesNothing := by
  have keepsUnread {before after : VenueSocket} (isAfter : before.process pair = some after) :
      after.unread = before.unread := by
    obtain ⟨_, isProcessed⟩ := Option.ite_none_right_eq_some.mp isAfter
    rw [← Option.some.inj isProcessed]
  cases onReplacement with
  | true =>
      obtain ⟨after, processes, rfl⟩ := Option.map_eq_some_iff.mp stepped
      obtain ⟨before, isOpened, isAfter⟩ := Option.bind_eq_some_iff.mp processes
      apply forall₂_congr
      intro pushed _
      simp only [Accounts, InGap, isOpened, Option.mem_def, Option.some.injEq, exists_eq_left',
        keepsUnread isAfter]
  | false =>
      obtain ⟨after, isAfter, rfl⟩ := Option.map_eq_some_iff.mp stepped
      apply forall₂_congr
      intro pushed _
      simp only [Accounts, InGap, keepsUnread isAfter]

/-- Whether a loop has a connection. -/
def Connected (exchange : Exchange) : Prop :=
  exchange.loop.phase = .acting ∨ exchange.loop.phase = .reading

/-- A connected loop that only idles or takes a page leaves its sockets alone, and records
nothing. -/
theorem sockets_of_connected {happening : Happening} (healthy : exchange.loop.Healthy happening)
    {loop : Loop} {rows : List (Ticker × Gap)}
    (stepped : exchange.loop.step seam policy happening = some (loop, rows))
    (notTurned : ∀ nowMicros succeeds askedMicros,
      happening ≠ .turned nowMicros succeeds askedMicros)
    (connected : exchange.Connected) :
    exchange.sockets seam happening = exchange ∧ rows = [] := by
  unfold Connected at connected
  cases happening with
  | reported window nowMicros =>
      obtain ⟨phase, _⟩ := Option.ite_none_right_eq_some.mp stepped
      simp [phase] at connected
  | connected openedMicros sent askedMicros =>
      obtain ⟨phase, _⟩ := Option.ite_none_right_eq_some.mp stepped
      rcases phase with phase | phase <;> simp [phase] at connected
  | page | connectFailed | idle =>
      obtain ⟨_, isNext⟩ := Option.ite_none_right_eq_some.mp stepped
      exact ⟨rfl, (Prod.mk.inj (Option.some.inj isNext)).2.symm⟩
  | turned nowMicros succeeds askedMicros => exact absurd rfl (notTurned _ _ _)
  | archiveFailed | frame | lost | cancelled => exact healthy.elim

/-- Only a turn of the loop changes what is due. -/
theorem due_sockets {happening : Happening}
    (notTurned : ∀ nowMicros succeeds askedMicros,
      happening ≠ .turned nowMicros succeeds askedMicros) :
    (exchange.sockets seam happening).due = exchange.due := by
  cases happening with
  | turned nowMicros succeeds askedMicros => exact absurd rfl (notTurned _ _ _)
  | reported | page | connectFailed | connected | archiveFailed | frame | idle | lost
  | cancelled => rfl

/-- What happens to the loop beside its turns loses nothing. -/
theorem losesNothing_happened_iff (sound : exchange.Sound) {happening : Happening}
    (notTurned : ∀ nowMicros succeeds askedMicros,
      happening ≠ .turned nowMicros succeeds askedMicros)
    (stepped : exchange.step seam policy (.happened happening) = some next) :
    next.LosesNothing ↔ exchange.LosesNothing := by
  obtain ⟨healthy, happens⟩ := Option.ite_none_right_eq_some.mp stepped
  obtain ⟨⟨loop, rows⟩, isStep, rfl⟩ := Option.map_eq_some_iff.mp happens
  by_cases connected : exchange.Connected
  · obtain ⟨sameSockets, rfl⟩ := sockets_of_connected healthy isStep notTurned connected
    rw [sameSockets]
    exact losesNothing_congr rfl rfl rfl (List.append_nil _) rfl
  · obtain ⟨notActing, notReading⟩ := not_or.mp connected
    have noneDue := (sound.unconnected notActing notReading).2.2.2
    apply iff_of_true
    · apply losesNothing_of_nil
      rw [← noneDue]
      exact due_sockets notTurned
    · exact losesNothing_of_nil noneDue

/-- **One move loses nothing exactly where nothing was lost before and the move keeps it so.** -/
theorem losesNothing_step_iff (sound : exchange.Sound) {move : Move}
    (stepped : exchange.step seam policy move = some next) :
    next.LosesNothing ↔ exchange.LosesNothing ∧ exchange.Keeps move := by
  cases move with
  | pushed pair bytes atMicros => exact losesNothing_pushed_iff sound stepped
  | processed onReplacement pair =>
      exact (losesNothing_processed_iff stepped).trans (and_iff_left trivial).symm
  | read nowMicros => exact (losesNothing_read_iff stepped).trans (and_iff_left trivial).symm
  | happened happening =>
      cases happening with
      | turned nowMicros succeeds askedMicros => exact losesNothing_turned_iff sound stepped
      | reported | page | connectFailed | connected | archiveFailed | frame | idle | lost
      | cancelled =>
          exact (losesNothing_happened_iff sound (by simp) stepped).trans
            (and_iff_left trivial).symm

theorem Sound.pushed (sound : exchange.Sound) {pair : Pair} {bytes : List UInt8} {atMicros : Int}
    (stepped : exchange.step seam policy (.pushed pair bytes atMicros) = some next) :
    next.Sound := by
  obtain rfl := Option.some.inj stepped
  have older {pushed : Push} (before : pushed.index < exchange.pushes) :
      pushed.index < exchange.pushes + 1 := before.trans (Nat.lt_succ_self _)
  constructor
  · intro pushed waits
    simp only at waits ⊢
    rcases mem_unread_push_iff.mp waits with wasUnread | ⟨rfl, isProcessed⟩
    · have wasDue := sound.unreadDue pushed wasUnread
      split
      · exact List.mem_append_left _ wasDue
      · exact wasDue
    · rw [if_pos (.inl isProcessed)]
      simp
  · intro pushed nowDue
    simp only at nowDue ⊢
    split at nowDue
    · rcases List.mem_append.mp nowDue with wasDue | isNew
      · exact older (sound.fresh pushed wasDue)
      · obtain rfl := List.mem_singleton.mp isNew
        exact Nat.lt_succ_self _
    · exact older (sound.fresh pushed nowDue)
  · exact fun pushed taken => older (sound.freshTaken pushed taken)
  · intro opened isOpened pushed waits
    obtain ⟨before, isBefore, rfl⟩ := Option.map_eq_some_iff.mp isOpened
    rcases mem_unread_push_iff.mp waits with wasUnread | ⟨rfl, _⟩
    · exact older (sound.freshOpened before isBefore pushed wasUnread)
    · exact Nat.lt_succ_self _
  · intro other hasLapsed
    have apart := sound.apart other hasLapsed
    simp only [VenueSocket.push]
    split
    · exact apart
    · exact apart
  · intro isOpened
    exact sound.handing (by simpa using isOpened)
  · intro notActing notReading
    obtain ⟨noCurrent, noReplacement, noneLapsed, noneDue⟩ :=
      sound.unconnected notActing notReading
    simp [noCurrent, noReplacement, noneLapsed, noneDue, VenueSocket.push]

theorem Sound.processed (sound : exchange.Sound) {onReplacement : Bool} {pair : Pair}
    (stepped : exchange.step seam policy (.processed onReplacement pair) = some next) :
    next.Sound := by
  cases onReplacement with
  | true =>
      obtain ⟨after, processes, rfl⟩ := Option.map_eq_some_iff.mp stepped
      obtain ⟨before, isOpened, isAfter⟩ := Option.bind_eq_some_iff.mp processes
      obtain ⟨_, isProcessed⟩ := Option.ite_none_right_eq_some.mp isAfter
      obtain rfl := Option.some.inj isProcessed
      refine { sound with freshOpened := ?_, handing := ?_, unconnected := ?_ }
      · intro opened isNow
        obtain rfl := Option.some.inj isNow
        exact sound.freshOpened before isOpened
      · exact fun _ => sound.handing (by rw [isOpened]; rfl)
      · intro notActing notReading
        rw [(sound.unconnected notActing notReading).2.1] at isOpened
        cases isOpened
  | false =>
      obtain ⟨after, isAfter, rfl⟩ := Option.map_eq_some_iff.mp stepped
      obtain ⟨isSent, isProcessed⟩ := Option.ite_none_right_eq_some.mp isAfter
      obtain rfl := Option.some.inj isProcessed
      refine { sound with apart := ?_, unconnected := ?_ }
      · intro other hasLapsed
        obtain ⟨wasLapsed, isOther⟩ := List.mem_filter.mp hasLapsed
        simp only [List.mem_cons, not_or]
        exact ⟨of_decide_eq_true isOther, sound.apart other wasLapsed⟩
      · intro notActing notReading
        rw [(sound.unconnected notActing notReading).1] at isSent
        cases isSent

theorem Sound.read (sound : exchange.Sound) {nowMicros : Int}
    (stepped : exchange.step seam policy (.read nowMicros) = some next) : next.Sound := by
  simp only [Exchange.step] at stepped
  split at stepped
  · cases stepped
  · rename_i head unread isUnread
    obtain ⟨⟨loop, rows⟩, isStep, rfl⟩ := Option.map_eq_some_iff.mp stepped
    obtain ⟨_, isTaken⟩ := Option.ite_none_right_eq_some.mp isStep
    obtain ⟨rfl, _⟩ := Prod.mk.inj (Option.some.inj isTaken)
    have headDue : head ∈ exchange.due :=
      sound.unreadDue head (by rw [isUnread]; exact List.mem_cons_self)
    constructor
    · intro pushed waits
      exact sound.unreadDue pushed (by rw [isUnread]; exact List.mem_cons_of_mem _ waits)
    · exact sound.fresh
    · intro pushed taken
      rcases List.mem_append.mp taken with before | isHead
      · exact sound.freshTaken pushed before
      · obtain rfl := List.mem_singleton.mp isHead
        exact sound.fresh pushed headDue
    · exact sound.freshOpened
    · exact sound.apart
    · exact sound.handing
    · intro notActing _
      exact absurd rfl notActing

theorem Sound.turned (sound : exchange.Sound) {nowMicros askedMicros : Int} {succeeds : Bool}
    (stepped : exchange.step seam policy (.happened (.turned nowMicros succeeds askedMicros)) =
      some next) : next.Sound := by
  obtain ⟨healthy, turns⟩ := Option.ite_none_right_eq_some.mp stepped
  obtain ⟨⟨loop, rows⟩, isStep, rfl⟩ := Option.map_eq_some_iff.mp turns
  obtain ⟨_, isTurn⟩ := Option.ite_none_right_eq_some.mp isStep
  obtain ⟨rfl, rfl⟩ := Prod.mk.inj (Option.some.inj isTurn)
  -- A turn that leaves the sockets alone, with none but the current one open.
  have alone (loop : Loop) (none : exchange.replacement = none) (reading : loop.phase = .reading) :
      Sound { exchange with loop := loop, published := exchange.published ++ [] } :=
    { sound with
      handing := fun isOpened => by rw [none] at isOpened; cases isOpened
      unconnected := fun _ notReading => absurd reading notReading }
  simp only [sockets]
  cases isDue : exchange.loop.due nowMicros with
  | wait =>
      apply alone
      · exact sound.replacement_eq_none (by rw [isDue]; simp)
      · simp only [Loop.turn, isDue]
  | keepalive =>
      obtain rfl : succeeds = true := healthy isDue
      apply alone
      · exact sound.replacement_eq_none (by rw [isDue]; simp)
      · simp only [Loop.turn, isDue, if_true]
  | openReplacement =>
      have noReplacement := @Sound.replacement_eq_none exchange sound nowMicros
        (by rw [isDue]; simp)
      cases succeeds with
      | false =>
          simp only [Bool.false_eq_true, if_false]
          apply alone
          · exact noReplacement
          · simp [Loop.turn, isDue]
      | true =>
          simp only [if_true]
          refine { sound with freshOpened := ?_, handing := ?_, unconnected := ?_ }
          · intro opened isOpened pushed waits
            obtain rfl := Option.some.inj isOpened
            cases waits
          · intro _
            cases isSession : exchange.loop.session with
            | none =>
                rw [Loop.due, isSession] at isDue
                cases isDue
            | some session =>
                refine ⟨session.replacementSubscribed, ?_, rfl⟩
                simp [Loop.turn, isDue, isSession]
          · intro _ notReading
            exact absurd (by simp [Loop.turn, isDue]) notReading
  | closeReplaced =>
      have reading : (exchange.loop.turn seam policy nowMicros succeeds).phase = .reading := by
        simp only [Loop.turn, isDue]
        split <;> rfl
      cases isOpened : exchange.replacement with
      | none =>
          apply alone
          · exact isOpened
          · exact reading
      | some opened =>
          constructor
          · exact fun pushed waits => List.mem_append_right _ waits
          · intro pushed nowDue
            rcases List.mem_append.mp nowDue with wasDue | waits
            · exact sound.fresh pushed wasDue
            · exact sound.freshOpened opened isOpened pushed waits
          · exact sound.freshTaken
          · intro other isOther
            cases isOther
          · intro pair hasLapsed
            exact of_decide_eq_true (List.mem_filter.mp hasLapsed).2
          · intro isOpened
            cases isOpened
          · intro _ notReading
            exact absurd reading notReading

theorem Sound.happened (sound : exchange.Sound) {happening : Happening}
    (notTurned : ∀ nowMicros succeeds askedMicros,
      happening ≠ .turned nowMicros succeeds askedMicros)
    (stepped : exchange.step seam policy (.happened happening) = some next) : next.Sound := by
  obtain ⟨healthy, happens⟩ := Option.ite_none_right_eq_some.mp stepped
  obtain ⟨⟨loop, rows⟩, isStep, rfl⟩ := Option.map_eq_some_iff.mp happens
  cases happening with
  | reported window nowMicros =>
      obtain ⟨phase, _⟩ := Option.ite_none_right_eq_some.mp isStep
      have nothing := sound.unconnected (by simp [phase]) (by simp [phase])
      refine { sound with handing := ?_, unconnected := fun _ _ => nothing }
      intro isOpened
      change exchange.replacement.isSome = true at isOpened
      rw [nothing.2.1] at isOpened
      cases isOpened
  | connectFailed =>
      obtain ⟨phase, _⟩ := Option.ite_none_right_eq_some.mp isStep
      have nothing := sound.unconnected (by rcases phase with phase | phase <;> simp [phase])
        (by rcases phase with phase | phase <;> simp [phase])
      refine { sound with handing := ?_, unconnected := fun _ _ => nothing }
      intro isOpened
      change exchange.replacement.isSome = true at isOpened
      rw [nothing.2.1] at isOpened
      cases isOpened
  | connected openedMicros sent askedMicros =>
      obtain ⟨phase, connects⟩ := Option.ite_none_right_eq_some.mp isStep
      obtain ⟨rfl, _⟩ := Prod.mk.inj (Option.some.inj connects)
      have nothing := sound.unconnected (by rcases phase with phase | phase <;> simp [phase])
        (by rcases phase with phase | phase <;> simp [phase])
      refine { sound with unreadDue := ?_, apart := ?_, handing := ?_, unconnected := ?_ }
      · intro pushed waits
        cases waits
      · intro pair _ isProcessed
        cases isProcessed
      · intro isOpened
        change exchange.replacement.isSome = true at isOpened
        rw [nothing.2.1] at isOpened
        cases isOpened
      · intro notActing _
        exact absurd rfl notActing
  | page payload =>
      obtain ⟨_, isTaken⟩ := Option.ite_none_right_eq_some.mp isStep
      obtain ⟨rfl, _⟩ := Prod.mk.inj (Option.some.inj isTaken)
      exact { sound with handing := sound.handing, unconnected := sound.unconnected }
  | idle =>
      obtain ⟨_, isIdle⟩ := Option.ite_none_right_eq_some.mp isStep
      obtain ⟨rfl, _⟩ := Prod.mk.inj (Option.some.inj isIdle)
      refine { sound with handing := sound.handing, unconnected := ?_ }
      intro notActing _
      exact absurd rfl notActing
  | turned nowMicros succeeds askedMicros => exact absurd rfl (notTurned _ _ _)
  | archiveFailed | frame | lost | cancelled => exact healthy.elim

/-- **Every move keeps the sockets as they should be.** -/
theorem Sound.step (sound : exchange.Sound) {move : Move}
    (stepped : exchange.step seam policy move = some next) : next.Sound := by
  cases move with
  | pushed pair bytes atMicros => exact sound.pushed stepped
  | processed onReplacement pair => exact sound.processed stepped
  | read nowMicros => exact sound.read stepped
  | happened happening =>
      cases happening with
      | turned nowMicros succeeds askedMicros => exact sound.turned stepped
      | reported | page | connectFailed | connected | archiveFailed | frame | idle | lost
      | cancelled => exact sound.happened (by simp) stepped

theorem losesNothing_exec_iff (sound : exchange.Sound) {moves : List Move}
    (run : exec (Exchange.step seam policy) moves exchange = some next) :
    next.LosesNothing ↔
      exchange.LosesNothing ∧ Guarded (Exchange.step seam policy) Keeps moves exchange := by
  induction moves generalizing exchange with
  | nil =>
      obtain rfl := Option.some.inj run
      exact (and_iff_left trivial).symm
  | cons move moves inductionHypothesis =>
      obtain ⟨after, stepped, rest⟩ := exec_cons_eq_some_iff.mp run
      rw [inductionHypothesis (sound.step stepped) rest, losesNothing_step_iff sound stepped,
        and_assoc]
      apply and_congr_right
      intro _
      apply and_congr_right
      intro _
      constructor
      · intro guarded other isOther
        obtain rfl := Option.some.inj (stepped.symm.trans isOther)
        exact guarded
      · exact fun guarded => guarded after stepped

/-- **What a handover loses.**  In every run of the loop with the venue in which no socket fails,
everything due is taken, waits to be, or lies inside a gap, exactly where each move keeps it so:
every frame unread on a socket the loop closes was taken or pushed to the replacement, and nothing
is pushed of a pair from then until the venue processes its subscription there. -/
theorem handover_loses_nothing_iff (seam : Seam) (policy : ConnectionPolicy) (clipped : Clipped)
    (moves : List Move) (final : Exchange)
    (run : exec (Exchange.step seam policy) moves (start seam clipped) = some final) :
    final.LosesNothing ↔
      Guarded (Exchange.step seam policy) Keeps moves (start seam clipped) := by
  rw [losesNothing_exec_iff (sound_start seam clipped) run]
  exact and_iff_right (losesNothing_of_nil rfl)

/-- A venue whose sessions are replaced every second. -/
def everySecond : ConnectionPolicy := .rotateAhead 2 1 0

/-- A session that rotates: the replacement opens after a second, and at the next turn the socket it
replaces is closed. -/
def handedOverAt (between : List Move) : List Move :=
  [.happened (.reported none 0), .happened (.connected 0 [teslaTrades] 0),
    .processed false teslaTrades, .happened (.turned 1000000 true 1000001), .happened .idle] ++
    between ++ [.happened (.turned 2000000 true 2000000)]

/-- Where a run of the one pair's venue arrives. -/
def handedOver (between : List Move) : Exchange :=
  (exec (Exchange.step quietSeam everySecond) (handedOverAt between)
    (start quietSeam .continuous)).getD (start quietSeam .continuous)

/-- A frame pushed once the replacement's subscription is processed waits there. -/
theorem handover_loses_nothing_processed :
    (handedOver [.processed true teslaTrades, .pushed teslaTrades [] 1500000]).LosesNothing := by
  apply (handover_loses_nothing_iff quietSeam everySecond .continuous
    (handedOverAt [.processed true teslaTrades, .pushed teslaTrades [] 1500000]) _ rfl).mpr
  decide +kernel

/-- **A frame unread on the socket that is closed is lost.**  It was pushed before the replacement's
subscription was processed, and no gap says so. -/
theorem unread_frame_lost :
    ¬ ∀ (moves : List Move) (final : Exchange),
      exec (Exchange.step quietSeam everySecond) moves (start quietSeam .continuous) = some final →
        final.LosesNothing := by
  intro nothing
  have loses := nothing (handedOverAt [.pushed teslaTrades [] 1500000]) _ rfl
    ⟨0, teslaTrades, [], 1500000⟩ (by decide +kernel)
  revert loses
  decide +kernel

end Exchange

end Capture
end Datawatch
