import Memento.Lib.Text
import Mathlib.Tactic.Ring

/-! The SIP messages that pjsip hands to the application server, as far as memento looks at them. -/

namespace Memento
open Text

/-- `pjsip_method_e`. -/
inductive Method where
  | INVITE | CANCEL | ACK | BYE | REGISTER | OPTIONS | OTHER
  deriving DecidableEq

inductive UriContext where
  | fromToHdr | routingHdr
  deriving DecidableEq

/-- A `pjsip_uri`, known by what `pjsip_uri_print` writes into a buffer of a given size; `none` is its
    result -1, for a URI that does not fit. -/
structure PjsipUri where
  print : UriContext → ℕ → Option Bytes
  length_le : ∀ {context size text}, print context size = some text → text.length ≤ size

def PjsipUri.ofText (text : Bytes) : PjsipUri where
  print _ size := if text.length ≤ size then some text else none
  length_le h := by
    split at h
    · cases h
      assumption
    · cases h

structure NameAddr where
  display : Bytes
  uri : PjsipUri

structure Param where
  name : Bytes
  value : Bytes

/-- A header, by the pjsip structure it was parsed into. -/
inductive Hdr where
  | routing (name : Bytes) (nameAddr : NameAddr) (otherParam : List Param)
  | genericString (name hvalue : Bytes)
  | cseq (method : Method)

def Hdr.name : Hdr → Bytes
  | .routing name _ _ => name
  | .genericString name _ => name
  | .cseq _ => ascii "CSeq"

/-- A request. Its From and To are there: pjsip drops a message without them. -/
structure Request where
  method : Method
  uri : PjsipUri
  fromHdr : NameAddr
  toHdr : NameAddr
  hdrs : List Hdr

structure Response where
  statusCode : ℤ
  hdrs : List Hdr

/-- `pjsip_msg_find_hdr_by_name` from the start of the message. -/
def findHdrByName (hdrs : List Hdr) (name : Bytes) : Option Hdr := hdrs.find? fun h => eqIgnoreCase h.name name

/-- The same, for a name whose headers pjsip parses into a `pjsip_routing_hdr`. -/
def findRouting (hdrs : List Hdr) (name : Bytes) : Option (NameAddr × List Param) :=
  match findHdrByName hdrs name with
  | some (.routing _ nameAddr otherParam) => some (nameAddr, otherParam)
  | _ => none

/-- The same, for a name whose headers pjsip keeps as a `pjsip_generic_string_hdr`. -/
def findGenericString (hdrs : List Hdr) (name : Bytes) : Option Bytes :=
  match findHdrByName hdrs name with
  | some (.genericString _ hvalue) => some hvalue
  | _ => none

/-- `pjsip_msg_find_hdr` for `PJSIP_H_CSEQ`: the method of the first CSeq. -/
def findCseq (hdrs : List Hdr) : Option Method :=
  hdrs.findSome? fun h =>
    match h with
    | .cseq method => some method
    | _ => none

def paramFind (params : List Param) (name : Bytes) : Option Param := params.find? fun p => eqIgnoreCase p.name name

end Memento
