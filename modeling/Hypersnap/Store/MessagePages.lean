import Hypersnap.Storage.Pages
import Hypersnap.Store.Confluence
import Hypersnap.Store.History

/-!
# `Store.MessagePages` — reading the messages under a prefix page by page

`get_messages_page_by_prefix` decodes every entry of a prefix's range and collects the messages that pass a
filter. The prefixes of the stores are a root byte, a fid and the byte of a set. For every prefix whose last
byte is not 255 the pages together are the messages under the prefix, exactly if all values under it decode
(`messagePages_exact_iff`). For the prefix `[255]`, which no store builds, `increment_vec_u8` carries and the
range is empty.
-/

namespace Hypersnap

open Cursor

def inDirection {α : Type} (reverse : Bool) (l : List α) : List α := if reverse then l.reverse else l

theorem mem_inDirection {α : Type} {reverse : Bool} {l : List α} {a : α} :
    a ∈ inDirection reverse l ↔ a ∈ l := by
  cases reverse
  · exact Iff.rfl
  · exact List.mem_reverse

/-! ## The query -/

/-- The messages of a page and the token of the next one. -/
abbrev MessagesPage := List Message × Option Bytes

section query
variable [Prost]

/-- What `get_messages_page_by_prefix` does with an entry. -/
def selectMessage (filter : Message → Bool) (e : Bytes × DbValue) : Except HubError (Option Message) :=
  match messageDecode e.2 with
  | .error err => .error err
  | .ok message => .ok (if filter message then some message else none)

def getMessagesPageByPrefix [DbIterator] (db : RocksDB) (start : Bytes) (pageOptions : PageOptions)
    (filter : Message → Bool) : Except HubError MessagesPage :=
  pageByPrefix db start (incrementVecU8 start) pageOptions (selectMessage filter)

/-- The pages from the first one on: each call passes on the token of the one before. -/
def messagesPages [DbIterator] (db : RocksDB) (start : Bytes) (pageOptions : PageOptions)
    (filter : Message → Bool) (token : Option Bytes) : Except HubError MessagesPage :=
  getMessagesPageByPrefix db start { pageOptions with pageToken := token } filter

/-! ## What the pages should be -/

/-- The entry as a message that passes the filter. -/
def messageOf (filter : Message → Bool) (e : Bytes × DbValue) : Option Message :=
  (messageDecode e.2).toOption.filter filter

/-- **The messages under a prefix** that pass the filter, in key order or backwards. -/
def MessagesUnder (db : RocksDB) (start : Bytes) (reverse : Bool) (filter : Message → Bool)
    (messages : List Message) : Prop :=
  ∃ entries : List (Bytes × DbValue), (entries.Pairwise fun a b => bytesCompare a.1 b.1 = .lt) ∧
    (∀ k v, (k, v) ∈ entries ↔ start <+: k ∧ db k = some v) ∧
    messages = (inDirection reverse entries).filterMap (messageOf filter)

/-! ## The pages are what is read -/

variable {db : RocksDB} {start : Bytes} {pageOptions : PageOptions} {filter : Message → Bool}

theorem kept_selectMessage (e : Bytes × DbValue) : kept (selectMessage filter) e = messageOf filter e := by
  unfold kept selectMessage messageOf
  cases messageDecode e.2 with
  | error err => rfl
  | ok m => cases hm : filter m <;> simp [Except.toOption, Option.filter, hm]

theorem selectMessage_ok_iff (e : Bytes × DbValue) :
    (∃ b, selectMessage filter e = .ok b) ↔ ∃ m, messageDecode e.2 = .ok m := by
  unfold selectMessage
  cases messageDecode e.2 <;> simp

/-- **Message pages are exact**, for a prefix that does not end in 255, if and only if every value under it
    decodes. -/
theorem messagePages_exact_iff [DbIterator] [DbIterator.Exact] (db : RocksDB)
    (hdb : {k | (db k).isSome}.Finite) (p : Bytes) (b : UInt8) (hb : b ≠ 255) (pageOptions : PageOptions)
    (filter : Message → Bool) :
    (∃ messages, Walk (messagesPages db (p ++ [b]) pageOptions filter) none messages ∧
        MessagesUnder db (p ++ [b]) pageOptions.reverse filter messages) ↔
      ∀ k v, db k = some v → p ++ [b] <+: k → ∃ m, messageDecode v = .ok m := by
  have hfin : (occupied db (p ++ [b]) (incrementVecU8 (p ++ [b]))).Finite := hdb.subset fun _ hk => hk.2
  have hmem (k : Bytes) (v : DbValue) :
      (k, v) ∈ DbIterator.scan db (p ++ [b]) (incrementVecU8 (p ++ [b])) ↔
      p ++ [b] <+: k ∧ db k = some v := by
    rw [mem_scan_iff hfin, inRange_iff_isPrefix hb]
  have hentries : queryEntries db (p ++ [b]) (incrementVecU8 (p ++ [b])) pageOptions.reverse none =
      inDirection pageOptions.reverse (DbIterator.scan db (p ++ [b]) (incrementVecU8 (p ++ [b]))) := by
    cases pageOptions.reverse <;> rfl
  have hwalk (messages : List Message) :
      Walk (messagesPages db (p ++ [b]) pageOptions filter) none messages ↔ _ :=
    walk_pageByPrefix_iff hfin (List.append_ne_nil_of_right_ne_nil p (List.cons_ne_nil b []))
  simp only [hwalk, selectAll_eq_ok_iff, selectMessage_ok_iff, hentries]
  constructor
  · rintro ⟨messages, ⟨hdecodes, -⟩, -⟩ k v hv hk
    exact hdecodes (k, v) (mem_inDirection.2 ((hmem k v).2 ⟨hk, hv⟩))
  · intro hdecodes
    refine ⟨_, ⟨fun e he => ?_, rfl⟩, _, DbIterator.Exact.sorted _ _ _, hmem, ?_⟩
    · obtain ⟨hk, hv⟩ := (hmem e.1 e.2).1 (mem_inDirection.1 he)
      exact hdecodes _ _ hv hk
    · rw [funext kept_selectMessage]

end query

/-- A database with one message, under each of these keys. -/
def samplePagesDb (keys : List Bytes) : RocksDB :=
  fun k => if keys.contains k then some (.message sampleCast) else none

theorem samplePagesDb_finite (keys : List Bytes) : {k | (samplePagesDb keys k).isSome}.Finite := by
  refine keys.finite_toSet.subset fun k hk => ?_
  by_contra hnot
  simp [samplePagesDb, show k ∉ keys from hnot] at hk

/-- Pages of one message, backwards over keys that are prefixes of each other. -/
theorem messagePages_exact_nested :
    ∃ messages,
      Walk (@messagesPages Store.noProst sortedScan (samplePagesDb [[3, 1], [3, 1, 0], [3, 1, 0, 0]]) [3, 1]
        ⟨some 1, none, true⟩ fun _ => true) none messages ∧
      @MessagesUnder Store.noProst (samplePagesDb [[3, 1], [3, 1, 0], [3, 1, 0, 0]]) [3, 1] true
        (fun _ => true) messages := by
  let _ := Store.noProst
  let _ := sortedScan
  have := sortedScan_exact
  refine (messagePages_exact_iff _ (samplePagesDb_finite _) [3] 1 (by decide) ⟨some 1, none, true⟩
    fun _ => true).2 fun k v hv _ => ?_
  unfold samplePagesDb at hv
  split at hv
  · cases hv
    exact ⟨_, rfl⟩
  · cases hv

/-- **What a prefix must not end in, and what must not be under it.** The range of the prefix `[255]` ends at
    `[1, 0]`, and the message under `[255, 1]` is not found; a value that is no message makes the call
    fail. -/
theorem messagePages_lose_255 :
    (¬∃ messages, Walk (@messagesPages Store.noProst (keyScan [[255, 1]]) (samplePagesDb [[255, 1]]) [255]
          ⟨some 1, none, false⟩ fun _ => true) none messages ∧
        @MessagesUnder Store.noProst (samplePagesDb [[255, 1]]) [255] false (fun _ => true) messages) ∧
      ¬∃ messages, Walk (@messagesPages Store.noProst (keyScan [[3, 1]])
        (fun k => if k = [3, 1] then some (.bytes []) else none) [3, 1] ⟨some 1, none, false⟩ fun _ => true)
          none messages := by
  have hpages : follow (@messagesPages Store.noProst (keyScan [[255, 1]]) (samplePagesDb [[255, 1]]) [255]
      ⟨some 1, none, false⟩ fun _ => true) 1 none = some [] := by decide +kernel
  constructor
  · rintro ⟨messages, hwalk, entries, -, hentries, rfl⟩
    have hnil := hwalk.unique (walk_of_follow hpages)
    have hmem : ([255, 1], DbValue.message sampleCast) ∈ entries := (hentries _ _).2 ⟨by decide, rfl⟩
    have hnone := List.filterMap_eq_nil_iff.1 hnil _ hmem
    cases hnone
  · rintro ⟨messages, hwalk⟩
    have hfails : @messagesPages Store.noProst (keyScan [[3, 1]])
        (fun k => if k = [3, 1] then some (.bytes []) else none)
        [3, 1] ⟨some 1, none, false⟩ (fun _ => true) none = .error .decodeError := rfl
    exact not_walk_of_error hfails hwalk

end Hypersnap
