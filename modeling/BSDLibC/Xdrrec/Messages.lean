import BSDLibC.Xdr.Streams
import BSDLibC.Xdrrec.RoundTrip

/-! Values on record streams: messages of values are encoded into records by the filters, and decoded
on the other side of a connection that blocks.
-/

namespace BSDLibC.Xdrrec

open Bytes Xdr

/-- The operations of an outgoing stream. -/
def recordPut (host : Host) : PutOps OutStrm where
  xPutlong rstrm l := (xdrrecPutlong host rstrm l).elim (.error .fault) .ok
  xPutbytes rstrm addr := (xdrrecPutbytes host rstrm addr).elim (.error .fault) .ok

/-- What a get operation returns: after a failure the stream is given up. -/
def orRefused {α : Type} (got : Option α × InStrm) : Except Fail (α × InStrm) :=
  got.1.elim (.error .refused) fun value => .ok (value, got.2)

/-- The operations of an incoming stream. -/
def recordGet (cut : Nat → Nat) (host : Host) : GetOps InStrm where
  xGetlong rstrm := orRefused (xdrrecGetlong cut host rstrm)
  xGetbytes rstrm len := orRefused (xdrrecGetbytes cut host rstrm len)

/-- A value with its type. -/
abbrev Item := (ty : Ty) × Val ty

/-- The values of a record, and whether it is sent at once. -/
structure Message where
  items : List Item
  sendnow : Bool

def sendItems (host : Host) : List Item → OutStrm → Except Fail OutStrm
  | [], rstrm => .ok rstrm
  | item :: items, rstrm => do
      sendItems host items (← (recordPut host).encode host.signedChar item.1 item.2 rstrm)

/-- Messages written one after the other. -/
def send (host : Host) : List Message → OutStrm → Except Fail OutStrm
  | [], rstrm => .ok rstrm
  | message :: messages, rstrm => do
      let rstrm ← sendItems host message.items rstrm
      let rstrm ← (xdrrecEndofrecord host rstrm message.sendnow).elim (.error .fault) .ok
      send host messages rstrm

section

variable (cut : Nat → Nat) (host : Host)

def receiveItems : List Ty → InStrm → Except Fail (List Item × InStrm)
  | [], rstrm => .ok ([], rstrm)
  | ty :: tys, rstrm => do
      let (value, rstrm) ← (recordGet cut host).decode ty rstrm
      let (items, rstrm) ← receiveItems tys rstrm
      return (⟨ty, value⟩ :: items, rstrm)

/-- From each record the values of some types are read; what is left of it is skipped. -/
def receive : List (List Ty) → InStrm → Except Fail (List (List Item))
  | [], _ => .ok []
  | tys :: more, rstrm => do
      let (ok, rstrm) := xdrrecSkiprecord cut host rstrm
      if ok then
        let (items, rstrm) ← receiveItems cut host tys rstrm
        return items :: (← receive more rstrm)
      else
        .error .refused

end

def Item.wire (host : Host) (item : Item) : List Byte := Xdr.wire host item.1 item.2

-----------------------------------------------------------------------------------------
-- Sending
-----------------------------------------------------------------------------------------

/-- A stream in the middle of a record, with what the record has got so far. -/
def InRecord (done : List Record) (rstrm : OutStrm) (content : List Byte) : Prop :=
  ∃ parts cur, Writing rstrm done parts cur ∧ parts.flatten ++ cur = content

theorem takes_record (host : Host) (done : List Record) : Takes (recordPut host) (InRecord done) := by
  constructor
  · rintro rstrm content ⟨parts, cur, writing, rfl⟩ l
    obtain ⟨rstrm', parts', cur', put, writing', content'⟩ := writing.putlong host l
    exact ⟨rstrm', by simp only [recordPut, put, Option.elim_some], parts', cur', writing', content'⟩
  · rintro rstrm content ⟨parts, cur, writing, rfl⟩ bytes
    obtain ⟨rstrm', parts', cur', put, writing', content'⟩ := writing.putbytes host bytes
    exact ⟨rstrm', by simp only [recordPut, put, Option.elim_some], parts', cur', writing', content'⟩

section

variable {host : Host}

theorem sendItems_eq {done : List Record} (items : List Item)
    (sound : ∀ item ∈ items, Sound host item.1 item.2)
    : ∀ {rstrm content}, InRecord done rstrm content →
      ∃ rstrm', sendItems host items rstrm = .ok rstrm'
        ∧ InRecord done rstrm' (content ++ items.flatMap (Item.wire host)) := by
  induction items with
  | nil => exact fun held => ⟨_, rfl, by simpa using held⟩
  | cons item items ih =>
      intro rstrm content held
      have fine := sound item List.mem_cons_self
      obtain ⟨rstrm₁, put, held₁⟩ :=
        ((takes_record host done).encode host item.1 fine.within fine.proper held).put fine.fits
      obtain ⟨rstrm₂, rest, held₂⟩ := ih (fun other h => sound other (List.mem_cons_of_mem item h)) held₁
      refine ⟨rstrm₂, ?_, ?_⟩
      · rw [sendItems, put]
        exact rest
      · rwa [List.flatMap_cons, ← List.append_assoc]

theorem length_items_mod (host : Host) (items : List Item)
    : (items.flatMap (Item.wire host)).length % 4 = 0 :=
  length_flatMap_mod (Item.wire host) items fun item _ => length_wire_mod host item.1 item.2

/-- The records that are made of messages hold the bytes of their values. -/
theorem send_eq (messages : List Message)
    (sound : ∀ message ∈ messages, ∀ item ∈ message.items, Sound host item.1 item.2)
    : ∀ {rstrm done}, Writing rstrm done [] [] →
      ∃ rstrm' records, send host messages rstrm = .ok rstrm' ∧ Writing rstrm' (done ++ records) [] []
        ∧ records.map Record.content = messages.map (fun message => message.items.flatMap (Item.wire host))
        ∧ (∀ message ∈ messages.getLast?, message.sendnow = true → rstrm'.sent = stream (done ++ records)) := by
  induction messages with
  | nil => exact fun writing => ⟨_, [], rfl, by simpa using writing, rfl, by simp⟩
  | cons message messages ih =>
      intro rstrm done writing
      obtain ⟨rstrm₁, put, parts, cur, writing₁, content⟩ :=
        sendItems_eq message.items (sound message List.mem_cons_self) ⟨[], [], writing, rfl⟩
      rw [List.flatten_nil, List.nil_append, List.nil_append] at content
      obtain ⟨rstrm₂, ended, writing₂, sent⟩ := writing₁.endofrecord host
        (by rw [content]; exact length_items_mod host message.items) message.sendnow
      obtain ⟨rstrm₃, records, rest, writing₃, contents, sent'⟩ :=
        ih (fun other member => sound other (List.mem_cons_of_mem message member)) writing₂
      refine ⟨rstrm₃, ⟨parts, cur⟩ :: records, ?_, by simpa using writing₃, ?_, ?_⟩
      · rw [send, put]
        simp only [bind, Except.bind, ended, Option.elim_some]
        exact rest
      · rw [List.map_cons, List.map_cons, contents, Record.content, content]
      · cases messages with
        | nil =>
            intro last member now
            cases member
            cases rest
            have none : records = [] := by simpa using contents
            subst none
            exact sent now
        | cons next messages =>
            intro last member now
            rw [List.getLast?_cons_cons] at member
            simpa using sent' last member now

end

-----------------------------------------------------------------------------------------
-- Receiving
-----------------------------------------------------------------------------------------

theorem supplies_record (cut : Nat → Nat) (host : Host) (rest : List Record)
    : Supplies (recordGet cut host) fun rstrm left => At rstrm left rest := by
  constructor
  · intro rstrm left at'
    obtain ⟨rstrm', got, next⟩ := at'.getlong cut host
    simp only [recordGet, got, readWord]
    by_cases short : left.length < 4
    · rw [if_neg (by omega), if_pos short]
      rfl
    · rw [if_pos (by omega), if_neg short]
      exact ⟨rstrm', rfl, next⟩
  · intro rstrm left at' len
    obtain ⟨rstrm', got, next⟩ := at'.getbytes cut host len
    simp only [recordGet, got]
    by_cases enough : len ≤ left.length
    · rw [if_pos enough, if_pos enough]
      exact ⟨rstrm', rfl, next⟩
    · rw [if_neg enough, if_neg enough]
      rfl

section

variable (cut : Nat → Nat) {writer : Host} (reader : Host)

theorem receiveItems_eq (items : List Item) (sound : ∀ item ∈ items, Sound writer item.1 item.2)
    (behind : List Byte) {rest : List Record}
    : ∀ {rstrm : InStrm}, At rstrm (items.flatMap (Item.wire writer) ++ behind) rest →
      ∃ rstrm' left, receiveItems cut reader (items.map Sigma.fst) rstrm = .ok (items, rstrm')
        ∧ At rstrm' left rest := by
  induction items with
  | nil => exact fun at' => ⟨_, _, rfl, at'⟩
  | cons item items ih =>
      intro rstrm at'
      rw [List.flatMap_cons, List.append_assoc] at at'
      have inverts := read_inverts writer item.1 item.2 (sound item List.mem_cons_self)
        (items.flatMap (Item.wire writer) ++ behind)
      have obtains := (supplies_record cut reader rest).decode item.1 at'
      rw [show read item.1 (Item.wire writer item ++ _) = _ from inverts] at obtains
      obtain ⟨rstrm₁, decoded, at₁⟩ := obtains
      obtain ⟨rstrm₂, left, others, at₂⟩ :=
        ih (fun other h => sound other (List.mem_cons_of_mem item h)) at₁
      refine ⟨rstrm₂, left, ?_, at₂⟩
      simp only [List.map_cons, receiveItems, decoded, bind, Except.bind, others]
      rfl

theorem receive_eq {wanted : List (List Item)}
    : ∀ {messages : List Message} {records : List Record},
      List.Forall₂ (fun want message => want <+: message.items) wanted messages →
      (∀ message ∈ messages, ∀ item ∈ message.items, Sound writer item.1 item.2) →
      records.map Record.content = messages.map (fun message => message.items.flatMap (Item.wire writer)) →
      ∀ {rstrm left}, At rstrm left records →
      receive cut reader (wanted.map (List.map Sigma.fst)) rstrm = .ok wanted := by
  induction wanted with
  | nil => exact fun _ _ _ _ _ _ => rfl
  | cons want wanted ih =>
      intro messages records begins sound contents rstrm left at'
      cases begins with
      | @cons _ message _ messages first begins =>
          cases records with
          | nil => cases contents
          | cons record records =>
              rw [List.map_cons, List.map_cons, List.cons.injEq] at contents
              obtain ⟨rstrm₁, skipped, at₁⟩ := at'.skiprecord cut reader
              obtain ⟨behind, whole⟩ := first
              rw [contents.1, ← whole, List.flatMap_append] at at₁
              obtain ⟨rstrm₂, left₂, received, at₂⟩ := receiveItems_eq cut reader want
                (fun item h => sound message List.mem_cons_self item
                  (whole ▸ List.mem_append_left behind h)) _ at₁
              have others := ih begins (fun other h => sound other (List.mem_cons_of_mem message h))
                contents.2 at₂
              simp only [List.map_cons, receive, skipped, if_true, bind, Except.bind, received, others]
              rfl

end

/-- A number and a string in a record that waits for the next one, a truth value in that one. -/
def greeting : List Message :=
  [⟨[⟨.int, 7#32⟩, ⟨.string 5, some [104, 105]⟩], false⟩, ⟨[⟨.bool, true⟩], true⟩]

end BSDLibC.Xdrrec
