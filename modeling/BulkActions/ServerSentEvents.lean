import Mathlib.Data.List.Basic
import Mathlib.Data.List.Infix

namespace ServerSentEvents

/-- What a client of an event stream is told. -/
structure Message where
  event : String
  data : String
  deriving DecidableEq, Repr

/-- A client that reads the stream character by character. -/
structure Decoder where
  line : List Char
  /-- the last line ended with a carriage return, whose line feed is still to come -/
  cr : Bool
  event : List Char
  data : List (List Char)
  heard : List Message
  deriving DecidableEq, Repr

namespace Decoder

/-- A blank line ends a message; without data there is none. -/
def dispatch (d : Decoder) : Decoder :=
  if d.data = [] then { d with event := [] }
  else
    let event := if d.event = [] then "message" else String.ofList d.event
    let message : Message := ⟨event, String.ofList (List.intercalate ['\n'] d.data)⟩
    { d with event := [], data := [], heard := d.heard ++ [message] }

def field (d : Decoder) (name value : List Char) : Decoder :=
  if name = ['e', 'v', 'e', 'n', 't'] then { d with event := value }
  else if name = ['d', 'a', 't', 'a'] then { d with data := d.data ++ [value] }
  else d

/-- The value of a field stands behind its colon and one blank. -/
def value : List Char → List Char
  | ':' :: ' ' :: cs => cs
  | ':' :: cs => cs
  | cs => cs

def endLine (d : Decoder) : Decoder :=
  match d.line with
  | [] => d.dispatch
  | ':' :: _ => { d with line := [] }
  | c :: cs =>
    { d with line := [] }.field ((c :: cs).takeWhile (· ≠ ':'))
      (value ((c :: cs).dropWhile (· ≠ ':')))

def feed (d : Decoder) (c : Char) : Decoder :=
  if c = '\n' then
    if d.cr then { d with cr := false } else d.endLine
  else if c = '\r' then { d.endLine with cr := true }
  else { d with line := d.line ++ [c], cr := false }

/-- Nothing of a message has been read since the last one. -/
def between (heard : List Message) : Decoder := ⟨[], false, [], [], heard⟩

end Decoder

open Decoder

/-- What a client has heard once it has read `cs`. -/
def decode (cs : List Char) : List Message := (cs.foldl feed (between [])).heard

/-- What a server may write: messages, and comments that keep the connection open. -/
inductive Item where
  | message (m : Message)
  | comment (text : String)

def Item.encode : Item → List Char
  | .message m =>
    ['e', 'v', 'e', 'n', 't', ':', ' '] ++ m.event.toList ++ ['\n'] ++
      (['d', 'a', 't', 'a', ':', ' '] ++ m.data.toList ++ ['\n']) ++ ['\n']
  | .comment text => (':' :: text.toList) ++ ['\n'] ++ ['\n']

def Item.message? : Item → Option Message
  | .message m => some m
  | .comment _ => none

def LineFree (cs : List Char) : Prop := '\n' ∉ cs ∧ '\r' ∉ cs

def Item.Plain : Item → Prop
  | .message m => m.event ≠ "" ∧ LineFree m.event.toList ∧ LineFree m.data.toList
  | .comment text => LineFree text.toList

section Growth

variable (d : Decoder)

theorem heard_dispatch : d.heard <+: d.dispatch.heard := by
  unfold dispatch
  split
  · exact List.prefix_refl _
  · exact List.prefix_append _ _

theorem heard_field (name value : List Char) : (d.field name value).heard = d.heard := by
  unfold field
  split_ifs <;> rfl

theorem heard_endLine : d.heard <+: d.endLine.heard := by
  unfold endLine
  split
  · exact heard_dispatch d
  · exact List.prefix_refl _
  · rw [heard_field]

theorem heard_feed (c : Char) : d.heard <+: (d.feed c).heard := by
  unfold feed
  split_ifs
  · exact List.prefix_refl _
  · exact heard_endLine d
  · exact heard_endLine d
  · exact List.prefix_refl _

/-- What has been heard stays heard. -/
theorem heard_foldl (cs : List Char) : d.heard <+: (cs.foldl feed d).heard := by
  induction cs generalizing d with
  | nil => exact List.prefix_refl _
  | cons c cs ih => exact (heard_feed d c).trans (ih (d.feed c))

end Growth

/-- A client that has read a part of the stream has heard the first of its messages. -/
theorem decode_prefix_of {cs ds : List Char} (h : cs <+: ds) : decode cs <+: decode ds := by
  obtain ⟨rest, rfl⟩ := h
  rw [decode, decode, List.foldl_append]
  exact heard_foldl _ rest

section Lines

variable {d : Decoder} {cs name value : List Char} {heard : List Message}

theorem feed_open (hcr : d.cr = false) (hcs : LineFree cs) :
    cs.foldl feed d = { d with line := d.line ++ cs } := by
  induction cs generalizing d with
  | nil => simp
  | cons c cs ih =>
    have hnewline : c ≠ '\n' := fun h => hcs.1 (h ▸ List.mem_cons_self)
    have hreturn : c ≠ '\r' := fun h => hcs.2 (h ▸ List.mem_cons_self)
    have hrest : LineFree cs :=
      ⟨fun h => hcs.1 (List.mem_cons_of_mem _ h), fun h => hcs.2 (List.mem_cons_of_mem _ h)⟩
    have hfeed : d.feed c = { d with line := d.line ++ [c], cr := false } := by
      simp [feed, hnewline, hreturn]
    rw [List.foldl_cons, hfeed, ih rfl hrest]
    simp [hcr]

/-- A line is read as a whole. -/
theorem feed_line (hline : d.line = []) (hcr : d.cr = false) (hcs : LineFree cs) :
    (cs ++ ['\n']).foldl feed d = { d with line := cs }.endLine := by
  rw [List.foldl_append, feed_open hcr hcs, hline]
  simp [feed, hcr]

/-- A named field is read off its line. -/
theorem endLine_field (hne : name ≠ []) (hname : ':' ∉ name) :
    { d with line := name ++ [':', ' '] ++ value }.endLine =
      { d with line := [] }.field name value := by
  have hall : ∀ c ∈ name, decide (c ≠ ':') = true := by
    intro c hc
    simpa using fun h : c = ':' => hname (h ▸ hc)
  have htake : (name ++ [':', ' '] ++ value).takeWhile (· ≠ ':') = name := by
    rw [List.append_assoc, List.takeWhile_append_of_pos hall]
    simp
  have hdrop : (name ++ [':', ' '] ++ value).dropWhile (· ≠ ':') = ':' :: ' ' :: value := by
    rw [List.append_assoc, List.dropWhile_append_of_pos hall]
    simp
  cases hcons : name ++ [':', ' '] ++ value with
  | nil => simp at hcons
  | cons c cs =>
    have hc : c ≠ ':' := by
      cases name with
      | nil => exact absurd rfl hne
      | cons c' name =>
        cases hcons
        exact fun h => hname (h ▸ List.mem_cons_self)
    rw [hcons] at htake hdrop
    unfold endLine
    split
    next h => cases h
    next h =>
      cases h
      exact absurd rfl hc
    next h =>
      cases h
      rw [htake, hdrop]
      rfl

theorem lineFree_append (h : LineFree cs) (h' : LineFree value) : LineFree (cs ++ value) :=
  ⟨by simp [h.1, h'.1], by simp [h.2, h'.2]⟩

/-- A client that is between two messages reads the next item as it was written. -/
theorem feed_item {item : Item} (h : item.Plain) :
    item.encode.foldl feed (between heard) = between (heard ++ item.message?.toList) := by
  cases item with
  | comment text =>
    have hline : LineFree (':' :: text.toList) := by
      have hcolon : LineFree [':'] := by simp [LineFree]
      exact lineFree_append hcolon h
    rw [Item.encode, List.foldl_append, feed_line rfl rfl hline]
    simp [between, endLine, feed, dispatch, Item.message?]
  | message m =>
    obtain ⟨hne, hevent, hdata⟩ := h
    have hevent : LineFree (['e', 'v', 'e', 'n', 't', ':', ' '] ++ m.event.toList) :=
      lineFree_append (by simp [LineFree]) hevent
    have hdata : LineFree (['d', 'a', 't', 'a', ':', ' '] ++ m.data.toList) :=
      lineFree_append (by simp [LineFree]) hdata
    have hnamed : ∀ d : Decoder,
        { d with line := ['e', 'v', 'e', 'n', 't', ':', ' '] ++ m.event.toList }.endLine =
          { d with line := [], event := m.event.toList } := fun d =>
      @endLine_field d ['e', 'v', 'e', 'n', 't'] _ (by simp) (by simp)
    have hcarried : ∀ d : Decoder,
        { d with line := ['d', 'a', 't', 'a', ':', ' '] ++ m.data.toList }.endLine =
          { d with line := [], data := d.data ++ [m.data.toList] } := fun d =>
      @endLine_field d ['d', 'a', 't', 'a'] _ (by simp) (by simp)
    rw [Item.encode, List.foldl_append, List.foldl_append, feed_line rfl rfl hevent, hnamed,
      feed_line rfl rfl hdata, hcarried]
    simp [between, endLine, feed, dispatch, Item.message?, hne]

theorem feed_items {items : List Item} (h : ∀ item ∈ items, item.Plain) :
    (items.flatMap Item.encode).foldl feed (between heard) =
      between (heard ++ items.filterMap Item.message?) := by
  induction items generalizing heard with
  | nil => simp
  | cons item items ih =>
    rw [List.flatMap_cons, List.foldl_append, feed_item (h item List.mem_cons_self),
      ih (fun item hitem => h item (List.mem_cons_of_mem _ hitem))]
    cases hm : item.message? <;> simp [hm]

end Lines

/-- A stream of items is heard as its messages. -/
theorem decode_items {items : List Item} (h : ∀ item ∈ items, item.Plain) :
    decode (items.flatMap Item.encode) = items.filterMap Item.message? := by
  rw [decode, feed_items h]
  rfl

end ServerSentEvents
