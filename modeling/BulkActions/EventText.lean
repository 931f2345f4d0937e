import BulkActions.StreamOrder
import BulkActions.ServerSentEvents
import Mathlib.Data.Nat.Digits.Defs

namespace BulkActions

open ServerSentEvents

/-- `str` of a UUID and `repr` of a float. -/
structure PayloadText where
  strUuid : Uuid → String
  reprFloat : Rat → String

def hex4 (n : Nat) : List Char :=
  [n / 4096 % 16, n / 256 % 16, n / 16 % 16, n % 16].map Nat.digitChar

/-- How `json.dumps` writes a character of a string: in printable ASCII. -/
def escape (c : Char) : List Char :=
  if c = '\\' then ['\\', '\\']
  else if c = '"' then ['\\', '"']
  else if c.toNat = 8 then ['\\', 'b']
  else if c.toNat = 12 then ['\\', 'f']
  else if c = '\n' then ['\\', 'n']
  else if c = '\r' then ['\\', 'r']
  else if c = '\t' then ['\\', 't']
  else if ' ' ≤ c ∧ c ≤ '~' then [c]
  else if c.toNat < 65536 then ['\\', 'u'] ++ hex4 c.toNat
  else
    let n := c.toNat - 65536
    ['\\', 'u'] ++ hex4 (55296 + n / 1024 % 1024) ++ (['\\', 'u'] ++ hex4 (56320 + n % 1024))

def jsonString (s : String) : List Char := '"' :: (s.toList.flatMap escape ++ ['"'])

def jsonInt (n : Nat) : List Char := (toString n).toList

def jsonObject (members : List (String × List Char)) : List Char :=
  '\x7b' :: (List.intercalate [',', ' ']
    (members.map (fun m => jsonString m.1 ++ [':', ' '] ++ m.2)) ++ ['\x7d'])

/-- `json.dumps` of a payload. -/
def ProgressPayload.dumps (t : PayloadText) (p : ProgressPayload) : String :=
  String.ofList (jsonObject
    [("id", jsonString (t.strUuid p.id)), ("status", jsonString p.status.value),
      ("total_entities", jsonInt p.totalEntities), ("processed_count", jsonInt p.processedCount),
      ("success_count", jsonInt p.successCount), ("failure_count", jsonInt p.failureCount),
      ("skipped_count", jsonInt p.skippedCount), ("total_batches", jsonInt p.totalBatches),
      ("completed_batches", jsonInt p.completedBatches),
      ("progress_percent", (t.reprFloat p.progressPercent).toList)])

def eventText (name data : String) : String :=
  "event: " ++ name ++ "\ndata: " ++ data ++ "\n\n"

/-- What `event_stream` yields for a frame. -/
def Frame.text (t : PayloadText) : Frame → String
  | .progress payload => eventText "progress" (payload.dumps t)
  | .done payload => eventText "done" (payload.dumps t)
  | .heartbeat => ": heartbeat\n\n"

/-- What the client is sent. -/
def EventStream.body (t : PayloadText) (e : EventStream) : List Char :=
  e.sent.flatMap (fun frame => (frame.text t).toList)

/-- What a frame tells the client. -/
def Frame.item (t : PayloadText) : Frame → Item
  | .progress payload => .message ⟨"progress", payload.dumps t⟩
  | .done payload => .message ⟨"done", payload.dumps t⟩
  | .heartbeat => .comment " heartbeat"

def EventStream.messages (t : PayloadText) (e : EventStream) : List Message :=
  e.sent.filterMap (fun frame => (frame.item t).message?)

/-- Floats are written on one line. -/
def PayloadText.OnOneLine (t : PayloadText) : Prop := ∀ q, LineFree (t.reprFloat q).toList

section Text

variable {t : PayloadText}

theorem lineFree_digitChar (n : Nat) : LineFree [n.digitChar] := by
  simp [LineFree]

theorem lineFree_flatMap {α : Type} {f : α → List Char} {xs : List α}
    (h : ∀ x ∈ xs, LineFree (f x)) : LineFree (xs.flatMap f) := by
  constructor <;> intro hmem <;> obtain ⟨x, hx, hc⟩ := List.mem_flatMap.mp hmem
  · exact (h x hx).1 hc
  · exact (h x hx).2 hc

theorem lineFree_hex4 (n : Nat) : LineFree (hex4 n) := by
  rw [hex4, List.map_eq_flatMap]
  exact lineFree_flatMap (fun k _ => lineFree_digitChar k)

theorem lineFree_escape (c : Char) : LineFree (escape c) := by
  have hunicode : ∀ n, LineFree (['\\', 'u'] ++ hex4 n) := fun n =>
    lineFree_append (by simp [LineFree]) (lineFree_hex4 n)
  unfold escape
  split
  · simp [LineFree]
  split
  · simp [LineFree]
  split
  · simp [LineFree]
  split
  · simp [LineFree]
  split
  · simp [LineFree]
  split
  · simp [LineFree]
  split
  · simp [LineFree]
  split
  next hnewline hreturn _ _ =>
    exact ⟨fun h => hnewline (List.mem_singleton.mp h).symm,
      fun h => hreturn (List.mem_singleton.mp h).symm⟩
  split
  · exact hunicode _
  · exact lineFree_append (hunicode _) (hunicode _)

theorem lineFree_jsonString (s : String) : LineFree (jsonString s) := by
  have hquote : LineFree ['"'] := by simp [LineFree]
  exact lineFree_append hquote
    (lineFree_append (lineFree_flatMap (fun c _ => lineFree_escape c)) hquote)

theorem lineFree_jsonInt (n : Nat) : LineFree (jsonInt n) := by
  have hdigits : ∀ c ∈ jsonInt n, c.isDigit := by
    intro c hc
    rw [jsonInt, Nat.toString_eq_repr, Nat.toList_repr] at hc
    exact Nat.isDigit_of_mem_toDigits (by decide) (by decide) hc
  exact ⟨fun h => absurd (hdigits _ h) (by decide), fun h => absurd (hdigits _ h) (by decide)⟩

theorem lineFree_intercalate {sep : List Char} (hsep : LineFree sep) {parts : List (List Char)}
    (h : ∀ part ∈ parts, LineFree part) : LineFree (List.intercalate sep parts) := by
  induction parts with
  | nil => simp [LineFree]
  | cons part parts ih =>
    have hpart := h part List.mem_cons_self
    have hparts := ih (fun part hmem => h part (List.mem_cons_of_mem _ hmem))
    cases parts with
    | nil => simpa using hpart
    | cons next parts =>
      rw [List.intercalate_cons_cons]
      exact lineFree_append (lineFree_append hpart hsep) hparts

theorem lineFree_jsonObject {members : List (String × List Char)}
    (h : ∀ m ∈ members, LineFree m.2) : LineFree (jsonObject members) := by
  have hopen : LineFree ['\x7b'] := by simp [LineFree]
  have hparts : LineFree (List.intercalate [',', ' ']
      (members.map (fun m => jsonString m.1 ++ [':', ' '] ++ m.2))) := by
    refine lineFree_intercalate (by simp [LineFree]) (fun part hpart => ?_)
    obtain ⟨m, hm, rfl⟩ := List.mem_map.mp hpart
    exact lineFree_append (lineFree_append (lineFree_jsonString m.1) (by simp [LineFree])) (h m hm)
  exact lineFree_append hopen (lineFree_append hparts (by simp [LineFree]))

/-- A payload is written on one line, whatever the id and the status look like. -/
theorem lineFree_dumps (ht : t.OnOneLine) (p : ProgressPayload) :
    LineFree (p.dumps t).toList := by
  rw [ProgressPayload.dumps, String.toList_ofList]
  refine lineFree_jsonObject ?_
  simp only [List.forall_mem_cons]
  exact ⟨lineFree_jsonString _, lineFree_jsonString _, lineFree_jsonInt _, lineFree_jsonInt _,
    lineFree_jsonInt _, lineFree_jsonInt _, lineFree_jsonInt _, lineFree_jsonInt _,
    lineFree_jsonInt _, ht _, fun _ hm => absurd hm List.not_mem_nil⟩

theorem eventText_eq (name data : String) :
    (eventText name data).toList = (Item.message ⟨name, data⟩).encode := by
  simp [eventText, Item.encode]

theorem text_eq (f : Frame) : (f.text t).toList = (f.item t).encode := by
  cases f with
  | progress payload => exact eventText_eq "progress" _
  | done payload => exact eventText_eq "done" _
  | heartbeat => simp [Frame.text, Frame.item, Item.encode]

theorem item_plain (ht : t.OnOneLine) (f : Frame) : (f.item t).Plain := by
  cases f with
  | progress payload => exact ⟨by simp, by simp [LineFree], lineFree_dumps ht payload⟩
  | done payload => exact ⟨by simp, by simp [LineFree], lineFree_dumps ht payload⟩
  | heartbeat => simp [Frame.item, Item.Plain, LineFree]

/-- A client that has read all of the stream has heard its messages. -/
theorem decode_body (ht : t.OnOneLine) (e : EventStream) : decode (e.body t) = e.messages t := by
  have hbody : e.body t = (e.sent.map (Frame.item t)).flatMap Item.encode := by
    rw [EventStream.body, List.flatMap_map]
    exact List.flatMap_congr (fun f _ => text_eq f)
  rw [hbody, decode_items (fun item hitem => ?_), EventStream.messages, List.filterMap_map]
  · rfl
  · obtain ⟨f, _, rfl⟩ := List.mem_map.mp hitem
    exact item_plain ht f

end Text

/-- A frame that the client is told of. -/
def Frame.speaks : Frame → Bool
  | .heartbeat => false
  | _ => true

/-- The frames of an action at work, and of its end. An action that has ended before it is asked
for is not announced to be done. -/
def framesOf (live : List ProgressPayload) (ending : Option ProgressPayload) : List Frame :=
  (live ++ ending.toList).map Frame.progress ++
    if live = [] then [] else ending.toList.map Frame.done

/-- A request has told of the action as it found it, before the message at `since`, and has relayed
the `n` messages from there on. -/
structure EventStream.Tells (found : ProgressPayload → ℕ → Prop) (published : List ProgressPayload)
    (e : EventStream) (live : List ProgressPayload) (ending : Option ProgressPayload)
    (since n : ℕ) : Prop where
  found : ∀ p, (live ++ ending.toList).head? = some p → found p since
  working : ∀ p ∈ live, ¬ p.status.isTerminal
  ended : ∀ p ∈ ending, p.status.isTerminal
  within : since + n ≤ published.length
  relayed : (live ++ ending.toList).tail = (published.drop since).take n
  sent : e.sent.filter Frame.speaks = framesOf live ending
  asked : e.pc = .getAction → live = []
  pending : e.pc ≠ .closed → ending = none
  initial : e.connected → live ≠ []
  subscribe : e.pc = .subscribe → n = 0
  next : ∀ next, e.pc = .getMessage next → next = since + n

section Telling

variable {t : PayloadText} {w : World} {e e' : EventStream} {live : List ProgressPayload}
  {ending : Option ProgressPayload} {published extra : List ProgressPayload} {since n : ℕ}
  {found : ProgressPayload → ℕ → Prop}

/-- What is published later does not change what has been told. -/
theorem tells_published (h : e.Tells found published live ending since n) :
    e.Tells found (published ++ extra) live ending since n where
  found := h.found
  working := h.working
  ended := h.ended
  within := by
    rw [List.length_append]
    exact h.within.trans (Nat.le_add_right _ _)
  relayed := by
    have hwithin := h.within
    have hlen : n ≤ (published.drop since).length := by
      rw [List.length_drop]
      omega
    rw [List.drop_append_of_le_length (by omega), List.take_append_of_le_length hlen]
    exact h.relayed
  sent := h.sent
  asked := h.asked
  pending := h.pending
  initial := h.initial
  subscribe := h.subscribe
  next := h.next

theorem tells_closed (h : e.Tells found published live ending since n) :
    ({ e with pc := .closed } : EventStream).Tells found published live ending since n where
  found := h.found
  working := h.working
  ended := h.ended
  within := h.within
  relayed := h.relayed
  sent := h.sent
  asked := fun hpc => by cases hpc
  pending := fun hpc => absurd rfl hpc
  initial := fun hconnected => by cases hconnected
  subscribe := fun hpc => by cases hpc
  next := fun _ hpc => by cases hpc

/-- Before the action is read, nothing has been told. -/
theorem tells_initial (h : e.Tells found published live ending since n) (hpc : e.pc = .getAction)
    (p : ProgressPayload) (hp : found p published.length) :
    ∃ live' ending', ({ pc := if p.status.isTerminal then .closed else .subscribe
                        sent := e.sent ++ [.progress p] } : EventStream).Tells found published
      live' ending' published.length 0 := by
  obtain rfl := h.asked hpc
  obtain rfl := h.pending (by simp [hpc])
  have hsent : (e.sent ++ [Frame.progress p]).filter Frame.speaks = [Frame.progress p] := by
    rw [List.filter_append, h.sent]
    rfl
  have hfirst : ∀ q, [p].head? = some q → found q published.length := by
    intro q hq
    cases Option.some.inj hq
    exact hp
  by_cases hterminal : p.status.isTerminal
  · refine ⟨[], some p, ?_⟩
    simp only [hterminal, if_true]
    exact ⟨hfirst, by simp, by simpa using hterminal, by simp, by simp, hsent, by simp, by simp,
      by simp [EventStream.connected], by simp, by simp⟩
  · refine ⟨[p], none, ?_⟩
    simp only [hterminal]
    exact ⟨hfirst, by simpa using hterminal, by simp, by simp, by simp, hsent, by simp, by simp,
      by simp, by simp, by simp⟩

theorem tells_subscribe (hlater : ∀ p k k', k ≤ k' → found p k → found p k')
    (h : e.Tells found published live ending since n) (hpc : e.pc = .subscribe) :
    ({ e with pc := .getMessage published.length } : EventStream).Tells found published live ending
      published.length 0 where
  found := fun p hp =>
    hlater p since _ ((Nat.le_add_right since n).trans h.within) (h.found p hp)
  working := h.working
  ended := h.ended
  within := by simp
  relayed := by
    rw [h.relayed, h.subscribe hpc]
    simp
  sent := h.sent
  asked := fun hget => by cases hget
  pending := fun _ => h.pending (by simp [hpc])
  initial := fun _ => h.initial (by simp [EventStream.connected, hpc])
  subscribe := fun hsub => by cases hsub
  next := fun _ hget => by
    cases hget
    rfl

theorem tells_heartbeat (h : e.Tells found published live ending since n) :
    ({ e with sent := e.sent ++ [.heartbeat] } : EventStream).Tells found published live ending
      since n where
  found := h.found
  working := h.working
  ended := h.ended
  within := h.within
  relayed := h.relayed
  sent := by
    rw [List.filter_append, h.sent]
    exact List.append_nil _
  asked := h.asked
  pending := h.pending
  initial := h.initial
  subscribe := h.subscribe
  next := h.next

/-- The next message is relayed, and with the last one the end. -/
theorem tells_message (h : e.Tells found published live ending since n) {next : ℕ}
    (hpc : e.pc = .getMessage next) {p : ProgressPayload} (hp : published[next]? = some p) :
    if p.status.isTerminal then
      ({ pc := .closed, sent := e.sent ++ [.progress p, .done p] } : EventStream).Tells found
        published live (some p) since (n + 1)
    else
      ({ pc := .getMessage (next + 1), sent := e.sent ++ [.progress p] } : EventStream).Tells found
        published (live ++ [p]) none since (n + 1) := by
  obtain rfl := h.pending (by simp [hpc])
  obtain rfl := h.next next hpc
  have hlive : live ≠ [] := h.initial (by simp [EventStream.connected, hpc])
  have hlt : since + n < published.length := (List.getElem?_eq_some_iff.mp hp).1
  have hrelayed : (live ++ [p]).tail = (published.drop since).take (n + 1) := by
    rw [List.tail_append_of_ne_nil hlive, List.take_add_one, List.getElem?_drop, hp,
      ← h.relayed, Option.toList_none, List.append_nil, Option.toList_some]
  have hsent : e.sent.filter Frame.speaks = live.map Frame.progress := by
    simpa [framesOf] using h.sent
  have hfirst : ∀ q, (live ++ [p]).head? = some q → found q since := by
    intro q hq
    refine h.found q ?_
    rw [List.head?_append_of_ne_nil _ hlive] at hq
    rw [Option.toList_none, List.append_nil, hq]
  split
  next hterminal =>
    refine ⟨hfirst, h.working, by simpa using hterminal, hlt, hrelayed, ?_, by simp, by simp,
      by simp [EventStream.connected], by simp, by simp⟩
    simp [List.filter_append, hsent, framesOf, Frame.speaks, hlive]
  next hterminal =>
    refine ⟨by simpa using hfirst, ?_, by simp, hlt, ?_, ?_, by simp, by simp, by simp, by simp, ?_⟩
    · intro q hq
      rcases List.mem_append.mp hq with hq | hq
      · exact h.working q hq
      · rwa [List.mem_singleton.mp hq]
    · rw [Option.toList_none, List.append_nil]
      exact hrelayed
    · simp [List.filter_append, hsent, framesOf, Frame.speaks]
    · intro next' hget
      cases hget
      rfl

theorem tells_advance (hlater : ∀ p k k', k ≤ k' → found p k → found p k')
    (hread : ∀ a, w.committed.action = some a → found (progressPayload a) w.published.length)
    (h : e.Tells found w.published live ending since n) (he : e.advance w = some e') :
    ∃ live' ending' since' n', e'.Tells found w.published live' ending' since' n' := by
  unfold EventStream.advance at he
  split at he
  next hpc =>
    split at he
    next =>
      cases Option.some.inj he
      exact ⟨_, _, _, _, tells_closed h⟩
    next a ha =>
      cases Option.some.inj he
      obtain ⟨live', ending', htells⟩ := tells_initial h hpc (progressPayload a) (hread a ha)
      exact ⟨live', ending', _, 0, htells⟩
  next hpc =>
    cases Option.some.inj he
    exact ⟨_, _, _, _, tells_subscribe hlater h hpc⟩
  next next hpc =>
    split at he
    next =>
      cases Option.some.inj he
      exact ⟨_, _, _, _, tells_heartbeat h⟩
    next p hp =>
      have hmessage := tells_message h hpc hp
      split at he <;> cases Option.some.inj he
      next hterminal =>
        rw [if_pos hterminal] at hmessage
        exact ⟨_, _, _, _, hmessage⟩
      next hterminal =>
        rw [if_neg hterminal] at hmessage
        exact ⟨_, _, _, _, hmessage⟩
  next => cases he

theorem tells_begins {x : Streaming} (h : x.Begins) :
    x.stream.Tells found x.sys.world.published [] none 0 0 := by
  rw [h.stream]
  exact ⟨by simp, by simp, by simp, by simp, by simp, rfl, by simp, by simp,
    by simp [EventStream.connected], by simp, by simp⟩

theorem tells_step {env : Env} {x x' : Streaming} {label : StreamLabel}
    (hlater : ∀ p k k', k ≤ k' → found p k → found p k')
    (hread : ∀ a, x.sys.world.committed.action = some a →
      found (progressPayload a) x.sys.world.published.length)
    (h : x.stream.Tells found x.sys.world.published live ending since n)
    (hstep : x.step env label = some x') :
    ∃ live' ending' since' n',
      x'.stream.Tells found x'.sys.world.published live' ending' since' n' := by
  cases label with
  | sys l =>
    obtain ⟨s', hs, rfl⟩ := Option.map_eq_some_iff.mp hstep
    rcases publishes_step hs with hsame | ⟨_, _, payload, _, _, hmore⟩
    · exact ⟨live, ending, since, n, hsame ▸ h⟩
    · exact ⟨live, ending, since, n, hmore ▸ tells_published h⟩
  | advance =>
    obtain ⟨e, he, rfl⟩ := Option.map_eq_some_iff.mp hstep
    exact tells_advance hlater hread h he
  | disconnect =>
    simp only [Streaming.step] at hstep
    split_ifs at hstep
    cases Option.some.inj hstep
    exact ⟨live, ending, since, n, tells_closed h⟩

theorem messages_framesOf (h : e.Tells found published live ending since n) :
    e.messages t = (live ++ ending.toList).map (fun p => ⟨"progress", p.dumps t⟩) ++
      if live = [] then [] else ending.toList.map (fun p => ⟨"done", p.dumps t⟩) := by
  have hspeaks : e.messages t =
      (e.sent.filter Frame.speaks).filterMap (fun frame => (frame.item t).message?) := by
    rw [EventStream.messages, List.filterMap_filter]
    refine List.filterMap_congr (fun frame _ => ?_)
    cases frame <;> rfl
  have hprogress : ∀ ps : List ProgressPayload,
      (ps.map Frame.progress).filterMap (fun frame => (frame.item t).message?) =
        ps.map (fun p => ⟨"progress", p.dumps t⟩) := by
    intro ps
    rw [List.filterMap_map, ← List.filterMap_eq_map]
    rfl
  have hdone : ∀ ps : List ProgressPayload,
      (ps.map Frame.done).filterMap (fun frame => (frame.item t).message?) =
        ps.map (fun p => ⟨"done", p.dumps t⟩) := by
    intro ps
    rw [List.filterMap_map, ← List.filterMap_eq_map]
    rfl
  rw [hspeaks, h.sent, framesOf, List.filterMap_append, hprogress]
  split
  · rfl
  · rw [hdone]

end Telling

/-- On the way from `x₀` to `x` the action has been in the state of the payload, when no more than
`k` messages had been published. -/
def Streaming.Found (env : Env) (x₀ x : Streaming) (p : ProgressPayload) (k : ℕ) : Prop :=
  ∃ y a, Runs.Reaches (Streaming.step env) Runs.anyStep x₀ y ∧
    Runs.Reaches (Streaming.step env) Runs.anyStep y x ∧
    y.sys.world.committed.action = some a ∧ p = progressPayload a ∧
    y.sys.world.published.length ≤ k

/-- Wherever the text of the stream is cut, a client has heard the first of its messages, and they
tell it of the action as it was found, then of what was published from then on, without a gap or a
repetition, and at last of the end, once: no message comes after it. -/
theorem client_told {t : PayloadText} (ht : t.OnOneLine) {env : Env} {x₀ x : Streaming}
    (hbegins : x₀.Begins) (h : Runs.Reaches (Streaming.step env) Runs.anyStep x₀ x)
    {received : List Char} (hreceived : received <+: x.stream.body t) :
    decode received <+: decode (x.stream.body t) ∧
      ∃ (live : List ProgressPayload) (ending : Option ProgressPayload) (since n : ℕ),
        (∀ p, (live ++ ending.toList).head? = some p → x₀.Found env x p since) ∧
        (∀ p ∈ live, ¬ p.status.isTerminal) ∧ (∀ p ∈ ending, p.status.isTerminal) ∧
        (live ++ ending.toList).tail = (x.sys.world.published.drop since).take n ∧
        decode (x.stream.body t) =
          (live ++ ending.toList).map (fun p => ⟨"progress", p.dumps t⟩) ++
            if live = [] then [] else ending.toList.map (fun p => ⟨"done", p.dumps t⟩) := by
  have hrun : ∃ live ending since n,
      x.stream.Tells (x₀.Found env x) x.sys.world.published live ending since n := by
    clear hreceived
    induction h with
    | refl => exact ⟨[], none, 0, 0, tells_begins hbegins⟩
    | @tail y z hy last ih =>
      obtain ⟨l, _, hstep⟩ := last
      obtain ⟨live, ending, since, n, htells⟩ := ih
      have hread : ∀ a, y.sys.world.committed.action = some a →
          x₀.Found env y (progressPayload a) y.sys.world.published.length :=
        fun a ha => ⟨y, a, hy, .refl, ha, rfl, Nat.le_refl _⟩
      obtain ⟨live', ending', since', n', htells'⟩ := tells_step
        (fun _ _ _ hle ⟨y', a, hfrom, hto, ha, hp, hk⟩ =>
          ⟨y', a, hfrom, hto, ha, hp, hk.trans hle⟩) hread htells hstep
      refine ⟨live', ending', since', n', { htells' with found := fun p hp => ?_ }⟩
      obtain ⟨y', a, hfrom, hto, hrest⟩ := htells'.found p hp
      exact ⟨y', a, hfrom, hto.tail ⟨l, trivial, hstep⟩, hrest⟩
  obtain ⟨live, ending, since, n, htells⟩ := hrun
  refine ⟨decode_prefix_of hreceived, live, ending, since, n, htells.found, htells.working,
    htells.ended, htells.relayed, ?_⟩
  rw [decode_body ht, messages_framesOf htells]

/-- Ids in decimal, and percentages as Python writes them. -/
def decimalText : PayloadText where
  strUuid := toString
  reprFloat q :=
    let n := (q * 100).floor.toNat
    let digits :=
      if n % 10 = 0 then toString (n / 10 % 10) else toString (n / 10 % 10) ++ toString (n % 10)
    toString (n / 100) ++ "." ++ digits

theorem decimalText_onOneLine : decimalText.OnOneLine := by
  intro q
  have hpoint : LineFree ".".toList := by simp [LineFree]
  simp only [decimalText, String.toList_append]
  refine lineFree_append (lineFree_append (lineFree_jsonInt _) hpoint) ?_
  split
  · exact lineFree_jsonInt _
  · rw [String.toList_append]
    exact lineFree_append (lineFree_jsonInt _) (lineFree_jsonInt _)

/-- A client that is there from the first batch to the last. -/
theorem client_told_contact :
    ∃ x, Runs.Reaches (Streaming.step defaultEnv) Runs.anyStep
        (Streaming.asks (plannedContacts [contactsJob])) x ∧
      (decode (x.stream.body decimalText)).map Message.event = ["progress", "progress", "done"] ∧
      decode ((x.stream.body decimalText).take 300) <+: decode (x.stream.body decimalText) := by
  have hrun : (Runs.steps (Streaming.step defaultEnv)
      (Streaming.asks (plannedContacts [contactsJob]))
      ([.advance, .advance, .sys (.deliver 0 contactsJob)] ++
        List.replicate 8 (.sys (.run 0 {})) ++ [.sys (.run 0 activeContact)] ++
        List.replicate 9 (.sys (.run 0 {})) ++ [.advance])).map
      (fun x => (x.stream.messages decimalText).map Message.event) =
        some ["progress", "progress", "done"] := by
    decide +kernel
  obtain ⟨x, hx, hmessages⟩ := Option.map_eq_some_iff.mp hrun
  have hbegins : (Streaming.asks (plannedContacts [contactsJob])).Begins :=
    Streaming.asks_begins (Tables.sys_atRest _ _)
  have hr := Runs.reaches_of_steps hx
  refine ⟨x, hr, ?_, (client_told decimalText_onOneLine hbegins hr (List.take_prefix _ _)).1⟩
  rw [decode_body decimalText_onOneLine, hmessages]

end BulkActions
