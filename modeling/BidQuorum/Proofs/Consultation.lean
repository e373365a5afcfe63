import BidQuorum.Proofs.Extend
import BidQuorum.Proofs.TextMap

set_option autoImplicit false

/-! # What validators ask of their modules

A validator asks its modules while it works, and what it answers does not show whom it asked, in
which order and how often. So the modules are watched: a journal stands beside the state outside,
where neither the modules nor the validator know of it, and each answer of a module is entered there
together with its question. Watched work does and answers what the work itself does
(`Action.Watches`), and its journal tells what was asked in the course of it
(`Validator.consultedToExtend`, `Validator.consultedToVerify`).

What the journals say is read off the loops. Every message that is not a bid is a question to all
modules, and the contributions are the successful answers, the last one for each key
(`Validator.watches_gatherAll`). A check goes on as long as the modules accept
(`Validator.watches_verifyInfo`). -/

namespace BidQuorum

variable {σ α β : Type}

/-! ## Questions and answers -/

/-- What is asked of the module under a key. -/
inductive Question where
  /-- What it contributes to the extension at a height, on account of a message. -/
  | contribute (key : String) (height : Height) (message : ForeignMessage)
  /-- What it thinks of the contribution of a peer. -/
  | judge (key : String) (info : Bytes)
deriving DecidableEq

/-- What the module under a key was asked and answered. -/
inductive Consultation where
  | contribute (key : String) (height : Height) (message : ForeignMessage)
      (answer : Except String Bytes)
  | judge (key : String) (info : Bytes) (answer : Except String VerifyStatus)
deriving DecidableEq

namespace Consultation

def question : Consultation → Question
  | contribute key height message _ => .contribute key height message
  | judge key info _ => .judge key info

/-- The contribution that was made, with the key of the module. -/
def contribution? : Consultation → Option (String × Bytes)
  | contribute key _ _ (.ok bytes) => some (key, bytes)
  | _ => none

/-- The module under a key was asked about what is under the key, and accepted it. -/
def accepted (x : String × Bytes) : Consultation := judge x.1 x.2 (.ok .accept)

end Consultation

/-! ## Watching -/

namespace Site

/-- The site, with other state outside. -/
def withOutside {τ : Type} (s : Site σ) (outside : τ) : Site τ :=
  { mempool := s.mempool, outside, events := s.events, log := s.log }

/-- The site, with an empty journal beside the state outside. -/
def watched (s : Site σ) : Site (σ × List Consultation) := s.withOutside (s.outside, [])

/-- The site without its journal. -/
def unwatched (s : Site (σ × List Consultation)) : Site σ := s.withOutside s.outside.1

def journal (s : Site (σ × List Consultation)) : List Consultation := s.outside.2

end Site

namespace Action

/-- The action beside a journal, which it leaves alone. -/
def beside (a : Action σ α) : Action (σ × List Consultation) α := fun s =>
  let done := a s.unwatched
  (done.1, done.2.withOutside (done.2.outside, s.journal))

/-- Enter a consultation into the journal. -/
def enter (c : Consultation) : Action (σ × List Consultation) Unit :=
  modify fun s => s.withOutside (s.outside.1, s.journal ++ [c])

end Action

/-- The module under a key, with each of its answers entered into the journal. -/
def Subscriber.watched (key : String) (m : Subscriber σ) : Subscriber (σ × List Consultation) where
  extend height message := do
    let answer ← (m.extend height message).beside
    Action.enter (.contribute key height message answer)
    return answer
  verify info := do
    let answer ← (m.verify info).beside
    Action.enter (.judge key info answer)
    return answer

namespace Validator

/-- The validator with its modules watched. -/
def watched (v : Validator σ) : Validator (σ × List Consultation) where
  settings := v.settings
  codec := v.codec
  subscribers := v.subscribers.map Subscriber.watched
  builder := v.builder.map fun build height txs => (build height txs).beside

/-- What the modules are asked, and answer, in the course of making an extension. -/
def consultedToExtend (v : Validator σ) (height : Height) (s : Site σ) : List Consultation :=
  (v.watched.extendVote height s.watched).2.journal

/-- What the modules are asked, and answer, in the course of checking a payload. -/
def consultedToVerify (v : Validator σ) (payload : Bytes) (s : Site σ) : List Consultation :=
  (v.watched.verify payload s.watched).2.journal

/-- A registered module gave this answer when it was asked, at some site. -/
def Gave (v : Validator σ) : Consultation → Prop
  | .contribute key height message answer =>
      ∃ m s, v.subscribers.find? key = some m ∧ (m.extend height message s).1 = answer
  | .judge key info answer =>
      ∃ m s, v.subscribers.find? key = some m ∧ (m.verify info s).1 = answer

end Validator

/-! ## Modules that go by the question -/

/-- Answers to all questions. -/
structure Conduct where
  contribute : String → Height → ForeignMessage → Except String Bytes
  judge : String → Bytes → Except String VerifyStatus

/-- The question with its answer. -/
def Conduct.answer (c : Conduct) : Question → Consultation
  | .contribute key height message => .contribute key height message (c.contribute key height message)
  | .judge key info => .judge key info (c.judge key info)

/-- The modules answer like this, whatever has happened before. -/
structure Validator.Follows (v : Validator σ) (c : Conduct) : Prop where
  extend : ∀ x ∈ v.subscribers.entries, ∀ height message s,
    (x.2.extend height message s).1 = c.contribute x.1 height message
  verify : ∀ x ∈ v.subscribers.entries, ∀ info s, (x.2.verify info s).1 = c.judge x.1 info

namespace Validator.Follows

variable {v : Validator σ} {c : Conduct}

theorem eq_answer (h : v.Follows c) {call : Consultation} (hcall : v.Gave call) :
    call = c.answer call.question := by
  cases call with
  | contribute key height message answer =>
      obtain ⟨m, s, hm, rfl⟩ := hcall
      rw [h.extend (key, m) ((TextMap.find?_eq_some_iff _).1 hm) height message s]
      rfl
  | judge key info answer =>
      obtain ⟨m, s, hm, rfl⟩ := hcall
      rw [h.verify (key, m) ((TextMap.find?_eq_some_iff _).1 hm) info s]
      rfl

/-- Who follows a conduct says the same whenever the same is asked. -/
theorem eq_map_answer (h : v.Follows c) {calls : List Consultation}
    (hcalls : ∀ call ∈ calls, v.Gave call) :
    calls = (calls.map Consultation.question).map c.answer := by
  rw [List.map_map]
  exact (List.map_id' calls).symm.trans
    (List.map_congr_left fun call hcall => h.eq_answer (hcalls call hcall))

end Validator.Follows

/-- A module that goes by a conduct, under a key. -/
def Subscriber.following (c : Conduct) (key : String) : Subscriber σ where
  extend height message := pure (c.contribute key height message)
  verify info := pure (c.judge key info)

namespace Validator

/-- A validator with modules that go by a conduct. -/
def following (c : Conduct) (keys : List String) : Validator σ where
  subscribers := .ofList (keys.map fun key => (key, .following c key))

variable {c : Conduct} {keys : List String}

theorem eq_following_of_mem {x : String × Subscriber σ}
    (hx : x ∈ (following c keys).subscribers.entries) : x.2 = .following c x.1 := by
  obtain ⟨key, -, rfl⟩ := List.mem_map.1 (TextMap.mem_of_mem_entries_ofList hx)
  rfl

theorem follows_following : (following c keys : Validator σ).Follows c where
  extend x hx _ _ _ := by rw [eq_following_of_mem hx]; rfl
  verify x hx _ _ := by rw [eq_following_of_mem hx]; rfl

end Validator

/-! ## What watching keeps -/

/-- The watched action does and answers what the action itself does, and whatever it enters into the
journal meets `P`, together with its answer. -/
structure Action.Watches (watched : Action (σ × List Consultation) α) (a : Action σ α)
    (P : List Consultation → α → Prop) : Prop where
  answer_eq : ∀ s, (watched s).1 = (a s.unwatched).1
  site_eq : ∀ s, (watched s).2.unwatched = (a s.unwatched).2
  entered : ∀ s, ∃ calls, (watched s).2.journal = s.journal ++ calls ∧ P calls (watched s).1

namespace Action.Watches

variable {P : List Consultation → α → Prop}

/-- Work of which nothing is entered. -/
theorem silent {watched : Action (σ × List Consultation) α} {a : Action σ α}
    (h : ∀ s, ((watched s).1, (watched s).2.unwatched) = a s.unwatched)
    (hjournal : ∀ s, (watched s).2.journal = s.journal) (hP : ∀ x, P [] x) :
    watched.Watches a P where
  answer_eq s := congrArg Prod.fst (h s)
  site_eq s := congrArg Prod.snd (h s)
  entered s := ⟨[], by rw [hjournal, List.append_nil], hP _⟩

theorem pure {x : α} (h : P [] x) : Watches (σ := σ) (pure x) (pure x) P where
  answer_eq _ := rfl
  site_eq _ := rfl
  entered s := ⟨[], (List.append_nil s.journal).symm, h⟩

theorem bind {watched : Action (σ × List Consultation) α} {a : Action σ α}
    {next : α → Action (σ × List Consultation) β} {f : α → Action σ β}
    {Q : α → List Consultation → β → Prop} {R : List Consultation → β → Prop}
    (ha : watched.Watches a P) (hf : ∀ x, (next x).Watches (f x) (Q x))
    (hR : ∀ first x later y, P first x → Q x later y → R (first ++ later) y) :
    (watched >>= next).Watches (a >>= f) R where
  answer_eq s := by simp only [bind_apply, (hf _).answer_eq, ha.answer_eq, ha.site_eq]
  site_eq s := by simp only [bind_apply, (hf _).site_eq, ha.answer_eq, ha.site_eq]
  entered s := by
    obtain ⟨first, hfirst, hP⟩ := ha.entered s
    obtain ⟨later, hlater, hQ⟩ := (hf (watched s).1).entered (watched s).2
    refine ⟨first ++ later, ?_, hR first _ later _ hP hQ⟩
    rw [bind_apply, hlater, hfirst, List.append_assoc]

/-- Work after which nothing is in the journal yet. -/
theorem quiet_bind {watched : Action (σ × List Consultation) α} {a : Action σ α}
    {next : α → Action (σ × List Consultation) β} {f : α → Action σ β}
    {R : List Consultation → β → Prop}
    (ha : watched.Watches a fun calls _ => calls = []) (hf : ∀ x, (next x).Watches (f x) R) :
    (watched >>= next).Watches (a >>= f) R :=
  ha.bind hf fun _ _ _ _ hnone hlater => hnone ▸ hlater

/-- What is entered in the course of work that starts with an empty journal. -/
theorem journal {watched : Action (σ × List Consultation) α} {a : Action σ α}
    (h : watched.Watches a P) (s : Site σ) : P (watched s.watched).2.journal (a s).1 := by
  obtain ⟨calls, hjournal, hP⟩ := h.entered s.watched
  have hcalls : (watched s.watched).2.journal = calls := hjournal
  have hanswer : (watched s.watched).1 = (a s).1 := h.answer_eq s.watched
  rwa [hcalls, ← hanswer]

theorem mono {watched : Action (σ × List Consultation) α} {a : Action σ α}
    {Q : List Consultation → α → Prop} (h : watched.Watches a P)
    (hPQ : ∀ calls x, P calls x → Q calls x) : watched.Watches a Q where
  answer_eq := h.answer_eq
  site_eq := h.site_eq
  entered s := by
    obtain ⟨calls, hjournal, hP⟩ := h.entered s
    exact ⟨calls, hjournal, hPQ calls _ hP⟩

theorem report (records : List LogRecord) :
    Watches (σ := σ) (report records) (report records) fun calls _ => calls = [] :=
  .silent (fun _ => rfl) (fun _ => rfl) fun _ => rfl

theorem publish (e : Event) :
    Watches (σ := σ) (publish e) (publish e) fun calls _ => calls = [] :=
  .silent (fun _ => rfl) (fun _ => rfl) fun _ => rfl

theorem promoteTx (tx : Transaction) :
    Watches (σ := σ) (promoteTx tx) (promoteTx tx) fun calls _ => calls = [] := by
  refine .silent (fun s => ?_) (fun s => ?_) fun _ => rfl
  · simp only [Action.promoteTx, call, Site.unwatched, Site.withOutside]
    split <;> rfl
  · simp only [Action.promoteTx, call, Site.journal]
    split <;> rfl

end Action.Watches

/-! ## Contributions -/

/-- The message, if it is not a bid. -/
def Message.foreign? : Message → Option ForeignMessage
  | bid _ => none
  | foreign message => some message

/-- The messages of a transaction that are no bids, in order. -/
def Transaction.foreignMessages (tx : Transaction) : List ForeignMessage :=
  tx.messages.filterMap Message.foreign?

namespace Subscriber

theorem watches_extend (key : String) (m : Subscriber σ) (height : Height)
    (message : ForeignMessage) :
    ((m.watched key).extend height message).Watches (m.extend height message)
      fun calls answer => calls = [.contribute key height message answer] ∧
        ∃ s, (m.extend height message s).1 = answer where
  answer_eq _ := rfl
  site_eq _ := rfl
  entered s := ⟨_, rfl, rfl, s.unwatched, rfl⟩

theorem watches_verify (key : String) (m : Subscriber σ) (info : Bytes) :
    ((m.watched key).verify info).Watches (m.verify info)
      fun calls answer => calls = [.judge key info answer] ∧ ∃ s, (m.verify info s).1 = answer where
  answer_eq _ := rfl
  site_eq _ := rfl
  entered s := ⟨_, rfl, rfl, s.unwatched, rfl⟩

end Subscriber

namespace Validator

variable {v : Validator σ} {height : Height}

/-- The questions to all modules on account of each of the messages, in order. -/
def questions (v : Validator σ) (height : Height) (messages : List ForeignMessage) :
    List Question :=
  messages.flatMap fun message => v.subscribers.keys.map fun key => .contribute key height message

theorem questions_cons (v : Validator σ) (height : Height) (message : ForeignMessage)
    (rest : List ForeignMessage) :
    v.questions height (message :: rest)
      = v.subscribers.entries.map (fun x => .contribute x.1 height message)
        ++ v.questions height rest := by
  rw [questions, List.flatMap_cons, TextMap.keys, List.map_map]
  rfl

theorem questions_append (v : Validator σ) (height : Height) (first later : List ForeignMessage) :
    v.questions height (first ++ later) = v.questions height first ++ v.questions height later :=
  List.flatMap_append

/-- What remains of the contributions under a key when its module has answered: a failure leaves
them as they were. -/
def keep (info : TextMap Bytes) (key : String) : Except String Bytes → TextMap Bytes
  | .ok bytes => info.insert key bytes
  | .error _ => info

/-- The consultations ask these questions, one after another, are answered by modules of the
validator, and add to the contributions. -/
structure Gathers (v : Validator σ) (questions : List Question) (info : TextMap Bytes)
    (calls : List Consultation) (info' : TextMap Bytes) : Prop where
  asked : calls.map Consultation.question = questions
  kept : info' = info.insertAll (calls.filterMap Consultation.contribution?)
  gave : ∀ c ∈ calls, v.Gave c

namespace Gathers

theorem nothing (info : TextMap Bytes) : v.Gathers [] info [] info := ⟨rfl, rfl, nofun⟩

theorem one {key : String} {m : Subscriber σ} (hm : v.subscribers.find? key = some m)
    {message : ForeignMessage} {answer : Except String Bytes} {s : Site σ}
    (hs : (m.extend height message s).1 = answer) (info : TextMap Bytes) :
    v.Gathers [.contribute key height message] info [.contribute key height message answer]
      (keep info key answer) where
  asked := rfl
  kept := by cases answer <;> rfl
  gave := List.forall_mem_singleton.2 ⟨m, s, hm, hs⟩

theorem append {questions questions' : List Question} {info info' info'' : TextMap Bytes}
    {calls calls' : List Consultation} (h : v.Gathers questions info calls info')
    (h' : v.Gathers questions' info' calls' info'') :
    v.Gathers (questions ++ questions') info (calls ++ calls') info'' where
  asked := by rw [List.map_append, h.asked, h'.asked]
  kept := by rw [h'.kept, h.kept, List.filterMap_append, TextMap.insertAll_append]
  gave := List.forall_mem_append.2 ⟨h.gave, h'.gave⟩

end Gathers

/-- A message is offered to modules in turn. -/
theorem watches_offer (height : Height) (message : ForeignMessage)
    {subscribers : List (String × Subscriber σ)}
    (h : ∀ x ∈ subscribers, v.subscribers.find? x.1 = some x.2) (info : TextMap Bytes) :
    (offer height message (subscribers.map fun x => (x.1, x.2.watched x.1)) info).Watches
      (offer height message subscribers info)
      (v.Gathers (subscribers.map fun x => .contribute x.1 height message) info) := by
  induction subscribers generalizing info with
  | nil => exact .pure (Gathers.nothing info)
  | cons x rest ih =>
      obtain ⟨key, m⟩ := x
      obtain ⟨hm, hrest⟩ := List.forall_mem_cons.1 h
      refine (m.watches_extend key height message).bind (Q := fun answer =>
        v.Gathers (rest.map fun x => .contribute x.1 height message) (keep info key answer))
        (fun answer => ?_) ?_
      · cases answer with
        | ok bytes => exact ih hrest (info.insert key bytes)
        | error reason => exact (Action.Watches.report _).quiet_bind fun _ => ih hrest info
      · rintro _ answer later info' ⟨rfl, s, hs⟩ hlater
        exact (Gathers.one hm hs info).append hlater

/-- Of the messages of a transaction, all but the bids are offered to all modules. -/
theorem watches_gatherMessages (messages : List Message) (g : Gathered) :
    (v.watched.gatherMessages height messages g).Watches (v.gatherMessages height messages g)
      fun calls g' => v.Gathers (v.questions height (messages.filterMap Message.foreign?))
        g.extraInfo calls g'.extraInfo := by
  induction messages generalizing g with
  | nil => exact .pure (Gathers.nothing g.extraInfo)
  | cons m rest ih =>
      cases m with
      | bid bid =>
          rw [gatherMessages, gatherMessages]
          cases bid.write with
          | ok bytes => exact ih _
          | error reason => exact (Action.Watches.report _).quiet_bind fun _ => ih _
      | foreign message =>
          have hregistered : ∀ x ∈ v.subscribers.entries, v.subscribers.find? x.1 = some x.2 :=
            fun x hx => (TextMap.find?_eq_some_iff _).2 hx
          refine (watches_offer height message hregistered g.extraInfo).bind
            (fun info => ih { g with extraInfo := info }) ?_
          intro first info later g' hfirst hlater
          have hforeign : (Message.foreign message :: rest).filterMap Message.foreign?
              = message :: rest.filterMap Message.foreign? := rfl
          rw [hforeign, questions_cons]
          exact hfirst.append hlater

/-- Over a whole pass, all messages but the bids are offered to all modules, whatever becomes of the
transactions that they are in. -/
theorem watches_gatherAll (txs : List Transaction) (g : Gathered) :
    (v.watched.gatherAll height txs g).Watches (v.gatherAll height txs g)
      fun calls g' => v.Gathers (v.questions height (txs.flatMap Transaction.foreignMessages))
        g.extraInfo calls g'.extraInfo := by
  induction txs generalizing g with
  | nil => exact .pure (Gathers.nothing g.extraInfo)
  | cons tx rest ih =>
      refine (watches_gatherMessages tx.messages g).bind (Q := fun g' calls g'' =>
          v.Gathers (v.questions height (rest.flatMap Transaction.foreignMessages))
            g'.extraInfo calls g''.extraInfo) (fun g' => ?_) ?_
      · refine (Action.Watches.promoteTx tx).quiet_bind fun answer => ?_
        cases answer with
        | ok hash => exact ih { g' with promoted := g'.promoted + 1 }
        | error e => exact (Action.Watches.report _).quiet_bind fun _ => ih g'
      · intro first g' later g'' hfirst hlater
        rw [List.flatMap_cons, questions_append]
        exact hfirst.append hlater

/-- Whether the modules are watched or not, the same extension is made in the same way. -/
theorem watches_extendVote (v : Validator σ) (height : Height) :
    (v.watched.extendVote height).Watches (v.extendVote height) fun _ _ => True := by
  have hmempool : (Action.mempool : Action (σ × List Consultation) Mempool).Watches Action.mempool
      fun calls _ => calls = [] := .silent (fun _ => rfl) (fun _ => rfl) fun _ => rfl
  refine hmempool.quiet_bind fun m => (watches_gatherAll m.pendingTxs {}).bind
    (Q := fun _ _ _ => True) (fun g => ?_) fun _ _ _ _ _ _ => trivial
  cases (VoteExtension.mk height g.bids g.extraInfo).write with
  | ok payload => exact (Action.Watches.publish _).quiet_bind fun _ => .pure trivial
  | error reason => exact .pure trivial

/-- What an extension carries of the modules are their contributions in the course of making it. -/
theorem gathers_attached (v : Validator σ) (height : Height) (s : Site σ) :
    v.Gathers (v.questions height (s.mempool.pendingTxs.flatMap Transaction.foreignMessages)) .empty
      (v.consultedToExtend height s) (v.attached height s).extraInfo := by
  have hjournal : v.consultedToExtend height s
      = (v.watched.gatherAll height s.mempool.pendingTxs {} s.watched).2.journal := by
    rw [consultedToExtend, extendVote_apply]
    split <;> rfl
  rw [hjournal]
  exact (v.watches_gatherAll s.mempool.pendingTxs {}).journal s

/-- What modules that follow a conduct are asked, and answer, in the course of making an extension. -/
theorem consultedToExtend_of_follows {c : Conduct} (hc : v.Follows c) (height : Height) (s : Site σ) :
    v.consultedToExtend height s
      = (v.questions height (s.mempool.pendingTxs.flatMap Transaction.foreignMessages)).map
          c.answer := by
  obtain ⟨hasked, -, hgave⟩ := v.gathers_attached height s
  rw [← hasked]
  exact hc.eq_map_answer hgave

/-- What an extension carries of modules that follow a conduct is a matter of what is pending. -/
theorem attached_of_follows {c : Conduct} (hc : v.Follows c) (height : Height) {s : Site σ}
    (hfits : ∀ b ∈ s.mempool.pendingTxs.flatMap Transaction.bids, b.Fits) :
    let txs := s.mempool.pendingTxs
    let calls := (v.questions height (txs.flatMap Transaction.foreignMessages)).map c.answer
    v.attached height s = ⟨height, txs.flatMap Transaction.witness,
      .ofList (calls.filterMap Consultation.contribution?)⟩ := by
  intro txs calls
  have hinfo : (v.attached height s).extraInfo
      = .ofList (calls.filterMap Consultation.contribution?) := by
    rw [(v.gathers_attached height s).kept, consultedToExtend_of_follows hc]
    rfl
  rw [← hinfo, ← v.bids_attached height hfits]
  rfl

/-- Without modules, an extension carries the bids of all that was pending and nothing else. -/
theorem attached_of_subscribers_eq_empty {v : Validator σ} (hv : v.subscribers = .empty)
    (height : Height) {s : Site σ}
    (hfits : ∀ b ∈ s.mempool.pendingTxs.flatMap Transaction.bids, b.Fits) :
    v.attached height s
      = ⟨height, s.mempool.pendingTxs.flatMap Transaction.witness, .empty⟩ := by
  obtain ⟨hasked, hkept, -⟩ := v.gathers_attached height s
  have hnobody : ∀ messages, v.questions height messages = [] := by
    intro messages
    rw [questions, hv]
    exact List.flatMap_eq_nil_iff.2 fun _ _ => rfl
  have hcalls : v.consultedToExtend height s = [] :=
    List.map_eq_nil_iff.1 (hasked.trans (hnobody _))
  rw [hcalls] at hkept
  rw [← v.bids_attached height hfits]
  exact congrArg (VoteExtension.mk height _) hkept

/-! ## Checks -/

/-- How a check ends, from the first contribution on that nobody accepts. -/
inductive Concludes (v : Validator σ) :
    List (String × Bytes) → List Consultation → VerifyStatus → Prop
  /-- All contributions were accepted. -/
  | agreed : Concludes v [] [] .accept
  /-- No module is registered under the key, and nobody is asked. -/
  | unregistered {key : String} (h : key ∉ v.subscribers.keys) (info : Bytes)
      (rest : List (String × Bytes)) : Concludes v ((key, info) :: rest) [] .reject
  /-- The module under the key did not accept, and its answer is the outcome. -/
  | objected {key : String} (h : key ∈ v.subscribers.keys) (info : Bytes)
      (rest : List (String × Bytes)) {status : VerifyStatus} (hstatus : status ≠ .accept) :
      Concludes v ((key, info) :: rest) [.judge key info (.ok status)] status
  /-- The module under the key failed. -/
  | failed {key : String} (h : key ∈ v.subscribers.keys) (info : Bytes)
      (rest : List (String × Bytes)) (reason : String) :
      Concludes v ((key, info) :: rest) [.judge key info (.error reason)] .unknown

/-- Of the entries some first ones were accepted, each by the module under its key; then the check
came to an end. The consultations are those of it, and modules of the validator gave the answers. -/
structure Inspects (v : Validator σ) (entries : List (String × Bytes)) (calls : List Consultation)
    (status : VerifyStatus) : Prop where
  course : ∃ passed rest last, entries = passed ++ rest ∧
    (∀ x ∈ passed, x.1 ∈ v.subscribers.keys) ∧ calls = passed.map Consultation.accepted ++ last ∧
    v.Concludes rest last status
  gave : ∀ c ∈ calls, v.Gave c

namespace Inspects

theorem conclude {entries : List (String × Bytes)} {calls : List Consultation}
    {status : VerifyStatus} (h : v.Concludes entries calls status) (hgave : ∀ c ∈ calls, v.Gave c) :
    v.Inspects entries calls status :=
  ⟨⟨[], entries, calls, rfl, nofun, rfl, h⟩, hgave⟩

theorem accept_cons {key : String} (hkey : key ∈ v.subscribers.keys) {info : Bytes}
    (hgave : v.Gave (.judge key info (.ok .accept))) {rest : List (String × Bytes)}
    {calls : List Consultation} {status : VerifyStatus} (h : v.Inspects rest calls status) :
    v.Inspects ((key, info) :: rest) (.judge key info (.ok .accept) :: calls) status := by
  obtain ⟨⟨passed, others, last, rfl, hpassed, rfl, hlast⟩, hcalls⟩ := h
  exact ⟨⟨(key, info) :: passed, others, last, rfl, List.forall_mem_cons.2 ⟨hkey, hpassed⟩, rfl,
    hlast⟩, List.forall_mem_cons.2 ⟨hgave, hcalls⟩⟩

theorem object {key : String} (hkey : key ∈ v.subscribers.keys) {info : Bytes}
    {status : VerifyStatus} (hgave : v.Gave (.judge key info (.ok status)))
    (hstatus : status ≠ .accept) (rest : List (String × Bytes)) :
    v.Inspects ((key, info) :: rest) [.judge key info (.ok status)] status :=
  conclude (.objected hkey info rest hstatus) (List.forall_mem_singleton.2 hgave)

theorem fail {key : String} (hkey : key ∈ v.subscribers.keys) {info : Bytes} {reason : String}
    (hgave : v.Gave (.judge key info (.error reason))) (rest : List (String × Bytes)) :
    v.Inspects ((key, info) :: rest) [.judge key info (.error reason)] .unknown :=
  conclude (.failed hkey info rest reason) (List.forall_mem_singleton.2 hgave)

/-- The outcome is to accept exactly if all contributions were accepted. -/
theorem eq_accept_iff {entries : List (String × Bytes)} {calls : List Consultation}
    {status : VerifyStatus} (h : v.Inspects entries calls status) :
    status = .accept ↔
      (∀ x ∈ entries, x.1 ∈ v.subscribers.keys) ∧ calls = entries.map Consultation.accepted := by
  obtain ⟨⟨passed, rest, last, rfl, hpassed, rfl, hlast⟩, -⟩ := h
  rw [List.forall_mem_append, List.map_append, List.append_cancel_left_eq]
  cases hlast with
  | agreed => exact iff_of_true rfl ⟨⟨hpassed, nofun⟩, rfl⟩
  | unregistered hkey =>
      exact iff_of_false nofun fun hall => hkey (List.forall_mem_cons.1 hall.1.2).1
  | objected _ _ _ hne =>
      refine iff_of_false hne fun hall => hne ?_
      injection (List.cons_eq_cons.1 hall.2).1 with _ _ hanswer
      exact Except.ok.inj hanswer
  | failed => exact iff_of_false nofun fun hall => nomatch hall.2

/-- If modules are registered under all keys, and none gives another answer than to accept, then all
contributions are accepted. -/
theorem all_accepted {entries : List (String × Bytes)} {calls : List Consultation}
    {status : VerifyStatus} (h : v.Inspects entries calls status)
    (hkeys : ∀ x ∈ entries, x.1 ∈ v.subscribers.keys)
    (haccept : ∀ x ∈ entries, ∀ answer, v.Gave (.judge x.1 x.2 answer) → answer = .ok .accept) :
    status = .accept ∧ calls = entries.map Consultation.accepted := by
  obtain ⟨⟨passed, rest, last, rfl, -, rfl, hlast⟩, hgave⟩ := h
  have hkeys := (List.forall_mem_append.1 hkeys).2
  have haccept := (List.forall_mem_append.1 haccept).2
  have hgave := (List.forall_mem_append.1 hgave).2
  cases hlast with
  | agreed => exact ⟨rfl, by rw [List.append_nil, List.append_nil]⟩
  | unregistered hkey => exact absurd (List.forall_mem_cons.1 hkeys).1 hkey
  | objected _ _ _ hne =>
      have hanswer := (List.forall_mem_cons.1 haccept).1 _ (List.forall_mem_singleton.1 hgave)
      exact absurd (Except.ok.inj hanswer) hne
  | failed =>
      cases (List.forall_mem_cons.1 haccept).1 _ (List.forall_mem_singleton.1 hgave)

end Inspects

/-- Contributions are checked in turn, up to the first one that is not accepted. -/
theorem watches_verifyInfo (entries : List (String × Bytes)) :
    (v.watched.verifyInfo entries).Watches (v.verifyInfo entries) (v.Inspects entries) := by
  induction entries with
  | nil => exact .pure (.conclude .agreed (List.forall_mem_nil _))
  | cons x rest ih =>
      obtain ⟨key, info⟩ := x
      have hwatched : v.watched.subscribers.find? key
          = (v.subscribers.find? key).map (Subscriber.watched key) := TextMap.find?_map _ _ key
      unfold verifyInfo
      rw [hwatched]
      cases hfind : v.subscribers.find? key with
      | none =>
          have hkey := (TextMap.find?_eq_none_iff _).1 hfind
          exact (Action.Watches.report _).quiet_bind fun _ =>
            .pure (.conclude (.unregistered hkey info rest) (List.forall_mem_nil _))
      | some m =>
          have hkey := TextMap.mem_keys_of_find? hfind
          refine (m.watches_verify key info).bind (Q := fun answer later status =>
            v.Gave (.judge key info answer) →
              v.Inspects ((key, info) :: rest) (.judge key info answer :: later) status)
            (fun answer => ?_) ?_
          · cases answer with
            | ok status =>
                cases status with
                | accept => exact ih.mono fun calls status h hgave => h.accept_cons hkey hgave
                | reject => exact .pure fun hgave => .object hkey hgave (by decide) rest
                | unknown => exact .pure fun hgave => .object hkey hgave (by decide) rest
            | error reason =>
                exact (Action.Watches.report _).quiet_bind fun _ =>
                  .pure fun hgave => .fail hkey hgave rest
          · rintro _ answer later status ⟨rfl, s, hs⟩ hlater
            exact hlater ⟨m, s, hfind, hs⟩

/-- Of a payload that cannot be read nobody is asked anything. -/
theorem watches_verify (payload : Bytes) :
    (v.watched.verify payload).Watches (v.verify payload) fun calls status =>
      match VoteExtension.ofBytes payload with
      | .error _ => calls = [] ∧ status = .reject
      | .ok extension => v.Inspects extension.extraInfo.entries calls status := by
  unfold verify
  cases VoteExtension.ofBytes payload with
  | error e =>
      exact (Action.Watches.report _).quiet_bind fun _ =>
        (Action.Watches.publish _).quiet_bind fun _ => .pure ⟨rfl, rfl⟩
  | ok extension =>
      refine (watches_verifyInfo extension.extraInfo.entries).bind
        (Q := fun status later status' => later = [] ∧ status' = status)
        (fun status => (Action.Watches.publish _).quiet_bind fun _ => .pure ⟨rfl, rfl⟩) ?_
      rintro calls status _ _ h ⟨rfl, rfl⟩
      rwa [List.append_nil]

end Validator

end BidQuorum
