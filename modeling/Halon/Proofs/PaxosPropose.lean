import Halon.Proofs.PaxosCalls

/-! Each event of a call keeps the invariant. The one event that does not do so
unconditionally is a refused command: see `afterCommand_preserves`. -/

namespace Halon.Paxos.System
open Halon.Library List
variable {N π V : Type} {group : AcceptorGroup N}

variable {system : System N π V}

theorem votes_chosen {resps : List (N × Unit)}
    (responses : ∀ entry ∈ resps, entry.1 ∈ group.acceptors ∧ (system.history d).voted entry.1 b x)
    (distinct : (resps.map Prod.fst).Nodup)
    (enough : resps.length = quorum group.acceptors.length) : (system.history d).Chosen (Majority group) b x := by
  refine ⟨{ α | α ∈ resps.map Prod.fst }, ⟨_, distinct, ?_, ?_, fun _ member => member⟩, ?_⟩
  · intro α member
    obtain ⟨entry, inside, rfl⟩ := mem_map.mp member
    exact (responses entry inside).1
  · rw [length_map, enough]
  · intro α member
    obtain ⟨entry, inside, rfl⟩ := mem_map.mp member
    exact (responses entry inside).2

variable [LinearOrder π]

theorem promises_safe (requested : system.RequestsValid group) (replied : system.RepliesValid) {resps : List (N × List (Ack π V))}
    (responses : ∀ entry ∈ resps, entry.1 ∈ group.acceptors ∧ system.Promised d entry.1 b entry.2)
    (distinct : (resps.map Prod.fst).Nodup)
    (enough : resps.length = quorum group.acceptors.length) (x : V) :
    (system.history d).SafeAt (Majority group) b ((chooseValue d (resps.map Prod.snd).flatten).getD x) := by
  have majority : Majority group { α | α ∈ resps.map Prod.fst } := by
    refine ⟨_, distinct, ?_, ?_, fun _ member => member⟩
    · intro α member
      obtain ⟨entry, inside, rfl⟩ := mem_map.mp member
      exact (responses entry inside).1
    · rw [length_map, enough]
  have promised : ∀ α ∈ { α | α ∈ resps.map Prod.fst }, (b : WithBot (BallotId π)) ≤ (system.history d).floor α := by
    intro α member
    obtain ⟨entry, inside, rfl⟩ := mem_map.mp member
    exact (responses entry inside).2.floor
  have reported : ∀ α ∈ { α | α ∈ resps.map Prod.fst }, ∀ earlier < b, ∀ y, (system.history d).voted α earlier y →
      ∃ ack ∈ (resps.map Prod.snd).flatten, ack.decree = d ∧ earlier ≤ ack.ballot := by
    intro α member earlier lower y voted
    obtain ⟨entry, inside, rfl⟩ := mem_map.mp member
    obtain ⟨ack, known, above⟩ := (responses entry inside).2.complete earlier y voted lower
    refine ⟨ack, mem_flatten.mpr ⟨entry.2, mem_map_of_mem inside, known⟩, ?_, above⟩
    exact ((responses entry inside).2.genuine ack known).1
  cases chosen : chooseValue d (resps.map Prod.snd).flatten with
  | none =>
    have silent := chooseValue_eq_none.mp chosen
    refine Voting.History.safeAt_of_silent majority x promised ?_
    intro α member earlier lower y voted
    obtain ⟨ack, known, same, _⟩ := reported α member earlier lower y voted
    exact silent ack known same
  | some =>
    obtain ⟨ack, known, _, value, highest⟩ := chooseValue_eq_some chosen
    obtain ⟨_, listed, inside⟩ := mem_flatten.mp known
    obtain ⟨entry, responded, rfl⟩ := mem_map.mp listed
    have voted := ((responses entry responded).2.genuine ack inside).2
    rw [value] at voted
    refine Voting.History.safeAt_of_highest (history_valid group requested replied d) majority promised voted ?_
    intro α member earlier lower above z vote
    obtain ⟨other, reports, decree, bound⟩ := reported α member earlier lower z vote
    exact absurd (bound.trans (highest other reports decree)) (not_le.mpr above)

variable [DecidableEq N]

variable {before : System N π V} {p : π} {d : DecreeId} {x : V} {b : BallotId π} {child : Nat}

section
variable (valid : before.Valid group)
include valid

theorem scout_preserves (own : b.ballotProcessId = p) (fresh : before.Fresh p child)
    (commanded : before.Commanded p (fun d' b' _ => d' = d ∧ b' < b)) :
    (before.advance p (Propose.scout group.acceptors p d x b child)).Valid group := by
  refine round_preserves valid fresh rfl trivial (fun _ _ _ _ same => by cases same) ?_ ?_
  · intro other
    simp [Call.collected]
  · refine ⟨own, round_begins fresh rfl, commanded.advance (fun _ _ _ held => held) ?_, by simp⟩
    intro d' b' mailbox y same
    cases same

theorem command_preserves (own : b.ballotProcessId = p) (fresh : before.Fresh p child)
    (commanded : before.Commanded p (fun d' b' y => d' = d ∧ (b' < b ∨ b' = b ∧ y = x')))
    (safe : (before.history d).SafeAt (Majority group) b x') :
    (before.advance p (Propose.command group.acceptors p d x b x' child)).Valid group := by
  refine round_preserves valid fresh rfl trivial ?_ ?_ ?_
  · intro d' b' mailbox y same
    cases same
    refine ⟨own, safe, ?_⟩
    intro α e c other z asked parent equal
    obtain ⟨decree, lower | ⟨_, value⟩⟩ := commanded α e c other z asked parent
    · exact absurd equal lower.ne
    · exact ⟨decree, value⟩
  · intro other
    simp [Call.collected]
  · refine ⟨own, round_begins fresh rfl, commanded.advance (fun _ _ _ held => held) ?_, safe, by simp⟩
    intro d' b' mailbox y same
    cases same
    exact ⟨rfl, .inr ⟨rfl, rfl⟩⟩

theorem propose_preserves (idle : before.calls p = .idle) : (before.advance p (propose group.acceptors p d x)).Valid group := by
  have unused := valid.calls p
  rw [idle] at unused
  refine scout_preserves valid rfl ?_ ?_
  · intro α sent mailbox asked replyTo parent
    exact absurd parent (unused α sent mailbox asked replyTo)
  · intro α d' b' mailbox y asked parent
    exact absurd parent (unused α _ mailbox asked rfl)

theorem query_preserves (idle : before.calls p = .idle) : (before.advance p (query group.acceptors p d)).Valid group := by
  have unused := valid.calls p
  rw [idle] at unused
  have fresh : before.Fresh p 0 := by
    intro α sent mailbox asked replyTo parent
    exact absurd parent (unused α sent mailbox asked replyTo)
  refine round_preserves valid fresh rfl trivial (fun _ _ _ _ same => by cases same) ?_ ?_
  · intro other
    simp [Call.collected]
  · exact ⟨round_begins fresh rfl, by simp⟩

theorem timeout_preserves {next} (expired : timeout group.acceptors p (before.calls p) = some next) :
    (before.advance p next).Valid group := by
  have called := valid.calls p
  cases call : before.calls p with
  | scouting =>
    rw [call] at called expired
    cases expired
    obtain ⟨own, round, commanded, _⟩ := called
    exact scout_preserves valid own round.fresh commanded
  | commanding =>
    rw [call] at called expired
    cases expired
    obtain ⟨own, round, commanded, safe, _⟩ := called
    exact command_preserves valid own round.fresh commanded safe
  | idle | returned _ _ | querying _ _ | answered _ _ | syncing _ | synced _ =>
    rw [call] at expired
    cases expired

theorem release_preserves (α : N) (d : DecreeId) : (before.post [(α, .trim d)]).Valid group := by
  have grows : Grows before (before.post [(α, .trim d)]) :=
    ⟨fun _ member => mem_append_left _ member, fun _ => Voting.History.Extends.refl _⟩
  have old {β : N} {sent : Request N π V} (asked : (β, sent) ∈ (before.post [(α, .trim d)]).requested) :
      (β, sent) ∈ before.requested ∨ sent = .trim d := by
    rcases mem_append.mp asked with old | new
    · exact .inl old
    · cases mem_singleton.mp new
      exact .inr rfl
  have awaited {β : N} {sent : Request N π V} {mailbox : ReplyTo π}
      (asked : (β, sent) ∈ (before.post [(α, .trim d)]).requested) (replyTo : sent.replyTo = some mailbox) :
      (β, sent) ∈ before.requested := by
    rcases old asked with held | rfl
    · exact held
    · cases replyTo
  refine ⟨?_, ⟨?_, ?_, ?_, ?_, ?_⟩, ?_, ?_, valid.awaited, ?_, ?_⟩
  · intro β
    exact { valid.acceptors β with }
  · intro β sent asked
    rcases old asked with held | rfl
    · exact valid.requested.voting held
    · trivial
  · exact fun asked replyTo => valid.requested.members (awaited asked replyTo) replyTo
  · exact fun asked => valid.requested.owned (awaited asked rfl)
  · exact fun first second => valid.requested.single (awaited first rfl) (awaited second rfl)
  · exact fun asked => valid.requested.safe (awaited asked rfl)
  · exact fun letter sent => valid.replied.grow grows letter sent
  · intro entry member
    rcases mem_append.mp member with held | new
    · exact mem_append_left _ (valid.pending entry held)
    · exact mem_append_right _ new
  · exact fun q => (valid.calls q).grow group grows fun _ _ _ asked replyTo _ => awaited asked replyTo
  · intro mailbox β
    have bound := valid.once mailbox β
    unfold outstanding at bound ⊢
    change (before.requests ++ [(α, Request.trim d)]).countP _ + before.replies.countP _ +
      ((before.calls mailbox.parent).collected mailbox.child).count β ≤ 1
    rw [countP_append, countP_singleton, if_neg (by simp [Request.replyTo])]
    exact bound

end

omit [DecidableEq N] in
theorem advance_same (system : System N π V) (p : π) : system.advance p (system.calls p, []) = system := by
  simp [advance, post]

omit [DecidableEq N] in
theorem dropReply_grows (before : System N π V) (index : Nat) : Grows before (before.dropReply index) :=
  ⟨fun _ member => member, fun _ => Voting.History.Extends.refl _⟩

theorem dropReply_valid (valid : before.Valid group) (index : Nat) : (before.dropReply index).Valid group := by
  have grows := dropReply_grows before index
  refine ⟨?_, { valid.requested with }, ?_, valid.pending, ?_, ?_, ?_⟩
  · exact fun α => { valid.acceptors α with }
  · exact fun letter sent => valid.replied.grow grows letter sent
  · exact fun letter member => valid.awaited letter (mem_of_mem_eraseIdx member)
  · exact fun q => (valid.calls q).grow group grows fun _ _ _ asked _ _ => asked
  · intro mailbox α
    have fewer := ((before.replies.eraseIdx_sublist index).countP_le
      (p := fun letter => decide (letter.source = α ∧ letter.receiver = mailbox)))
    have bound := valid.once mailbox α
    unfold outstanding at bound ⊢
    change before.requests.countP _ + (before.replies.eraseIdx index).countP _ +
      ((before.calls mailbox.parent).collected mailbox.child).count α ≤ 1
    omega

theorem dropReply_taken (valid : before.Valid group)
    (found : before.replies[index]? = some letter) :
    (before.dropReply index).outstanding letter.receiver letter.source = 0 := by
  have taken := countP_eraseIdx
    (fun other => decide (other.source = letter.source ∧ other.receiver = letter.receiver)) found
  have bound := valid.once letter.receiver letter.source
  unfold outstanding at bound ⊢
  change before.requests.countP _ + (before.replies.eraseIdx index).countP _ +
    ((before.calls letter.receiver.parent).collected letter.receiver.child).count letter.source = 0
  simp only [and_self, decide_true, if_true] at taken
  omega

theorem collected_distinct (valid : before.Valid group)
    (taken : before.outstanding mailbox source = 0) :
    (source :: (before.calls mailbox.parent).collected mailbox.child).Nodup := by
  rw [nodup_cons, nodup_iff_count]
  constructor
  · unfold outstanding at taken
    exact count_eq_zero.mp (by omega)
  · intro α
    have bound := valid.once mailbox α
    unfold outstanding at bound
    omega

theorem collect_preserves (valid : before.Valid group) (taken : before.outstanding ⟨p, child⟩ source = 0)
    (called : before.CallValid group p call)
    (collected : ∀ other α, (call.collected other).count α ≤
      ((before.calls p).collected other).count α + if other = child ∧ α = source then 1 else 0) :
    (before.advance p (call, [])).Valid group := by
  have same : (before.advance p (call, [])).requested = before.requested := append_nil _
  have grows := advance_grows before p (call, [])
  refine advance_preserves valid ?_ ?_ (by simp) ?_
  · refine ⟨?_, ?_, ?_, ?_, ?_⟩
    · exact fun asked => valid.requested.voting (same ▸ asked)
    · exact fun asked replyTo => valid.requested.members (same ▸ asked) replyTo
    · exact fun asked => valid.requested.owned (same ▸ asked)
    · exact fun first second => valid.requested.single (same ▸ first) (same ▸ second)
    · exact fun asked => valid.requested.safe (same ▸ asked)
  · exact called.grow group grows fun _ _ _ asked _ _ => same ▸ asked
  · rintro ⟨parent, number⟩ α
    have bound := valid.once ⟨parent, number⟩ α
    simp only [outstanding] at bound taken ⊢
    change (before.requests ++ []).countP _ + before.replies.countP _ +
      (((before.advance p (call, [])).calls parent).collected number).count α ≤ 1
    rw [append_nil]
    by_cases own : parent = p
    · subst own
      have more := collected number α
      simp only [advance_self]
      by_cases here : number = child ∧ α = source
      · obtain ⟨rfl, rfl⟩ := here
        simp only [and_self, if_true] at more
        omega
      · rw [if_neg here] at more
        omega
    · rw [advance_other _ _ own]
      exact bound

end Halon.Paxos.System
