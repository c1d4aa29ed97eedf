import Hypersnap.Trie.Placement

/-!
# `Trie.PagedValues` — enumerating a sub-tree page by page

`MerkleTrie::get_paged_values_of_subtree`: an iterative walk over the sub-tree at a prefix with an explicit
stack of the nibbles still to be visited at each level. When a page is full, the walk is written into a page
token (the path from the prefix and the stack, as length-delimited segments in base64), from which the next
call resumes.

What a walk has left to do is described by `Rest`, a list of keys with a bound on the number of steps. One
step takes at most one key off that list, and a resumed call has the list its predecessor left (`walk_spec`,
`pagesFrom_rest`), so the pages together are the keys below the prefix, whatever state the trie is in
(`pagedValues_complete`).
-/

namespace Hypersnap

open Overlay PrefixSet TrieNode

/-! ## The model -/

/-- The `base64` engine of the page tokens: every byte string has a text it is read back from, and the empty
    text is that of the empty string. -/
class Base64 where
  encode : Bytes → String
  decode : String → Except String Bytes
  decode_encode : ∀ bytes, decode (encode bytes) = .ok bytes
  decode_empty : decode "" = .ok []

/-- The bytes that the pairs of nibbles stand for. -/
def combinePairs : Bytes → Bytes
  | hi :: lo :: rest => (hi <<< 4 ||| lo &&& 0x0F) :: combinePairs rest
  | _ => []

def combineNibbles (input : Bytes) : Except TrieError Bytes :=
  if input.length % 2 = 0 then .ok (combinePairs input) else .error (.panic "Input length must be even")

/-- Each segment after its length in 32 bits. -/
def encodeSegments (segments : List Bytes) : Bytes :=
  segments.flatMap fun part => toBeBytes part.length.toUInt32 ++ part

def encodeTriePageToken [Base64] : Option (List Bytes) → String
  | none => ""
  | some token =>
    if token.isEmpty then "" else Base64.encode (toBeBytes token.length.toUInt32 ++ encodeSegments token)

/-- Read `count` segments; returns them and what follows. -/
def decodeSegments : Nat → Bytes → Except TrieError (List Bytes × Bytes)
  | 0, bytes => .ok ([], bytes)
  | count + 1, bytes =>
    if bytes.length < 4 then .error (.tokenDecodeError "Unexpected EOF reading length")
    else
      let len := fromBeBytes (bytes.take 4)
      let bytes := bytes.drop 4
      if bytes.length < len then .error (.tokenDecodeError "Unexpected EOF reading segment")
      else
        match decodeSegments count (bytes.drop len) with
        | .error e => .error e
        | .ok (out, rest) => .ok (bytes.take len :: out, rest)

def decodeTriePageToken [Base64] (encoded : String) : Except TrieError (Option (List Bytes)) :=
  if encoded.isEmpty then .ok none
  else
    match Base64.decode encoded with
    | .error e => .error (.tokenDecodeError e)
    | .ok bytes =>
      if bytes.length < 4 then .error (.tokenDecodeError "Too short")
      else
        match decodeSegments (fromBeBytes (bytes.take 4)) (bytes.drop 4) with
        | .error e => .error e
        | .ok (out, rest) =>
          if rest ≠ [] then .error (.tokenDecodeError "Extra bytes at end")
          else if out.isEmpty then .ok none
          else .ok (some out)

/-- The token a call was given, if any. -/
def decodeGiven [Base64] : Option String → Except TrieError (Option (List Bytes))
  | none => .ok none
  | some encoded => decodeTriePageToken encoded

namespace MerkleTrie

/-- The key of a leaf, combined back into bytes, if it has one. -/
def leafKeys (leaf : TrieNode) : Except TrieError (List Bytes) :=
  match leaf.key with
  | none => .ok []
  | some key => if key.isEmpty then .error .keyLengthTooShort else (combineNibbles key).map ([·])

/-- The children of a node in the order of a stack: the smallest nibble is popped first. -/
def stackedChildren (n : TrieNode) : Bytes := (ByteMap.chars n.children).reverse

/-- The state of a walk: the keys found in this call, the path from the prefix, and the nibbles that remain to
    be visited at each level of that path (the last level is the current one). The source keeps the path from
    the root as well; it is the prefix followed by `relativePath`. -/
structure PageWalk where
  leafKeys : List Bytes
  relativePath : Bytes
  remainingStack : List Bytes
deriving DecidableEq, Repr

/-- What a call returns: the keys it pushed, and the next page token. -/
abbrev PageResult := List Bytes × Except TrieError (Option String)

section model

variable [Base64] [Hex]

/-- One round of the loop. -/
def walkStep (db : RocksDB) (root : TrieNode) (expandedPrefix : Bytes) (maxItems : Nat) (w : PageWalk) :
    PageResult ⊕ PageWalk :=
  if maxItems ≤ w.leafKeys.length then
    .inl (w.leafKeys, .ok (some (encodeTriePageToken (some (w.relativePath :: w.remainingStack)))))
  else
    match w.remainingStack.getLast? with
    | none => .inl (w.leafKeys, .ok none)
    | some remaining =>
      match remaining.getLast? with
      | none =>
        -- the level is exhausted: back to its parent
        .inr { w with relativePath := w.relativePath.dropLast, remainingStack := w.remainingStack.dropLast }
      | some nextChar =>
        let remainingStack := w.remainingStack.dropLast ++ [remaining.dropLast]
        let path := expandedPrefix ++ (w.relativePath ++ [nextChar])
        match root.getNodeFromTrie db [] path with
        | none => .inl (w.leafKeys, .error (.nodeNotFound path))
        | some currentNode =>
          if currentNode.isLeaf then
            match leafKeys currentNode with
            | .error e => .inl (w.leafKeys, .error e)
            | .ok keys => .inr { w with leafKeys := w.leafKeys ++ keys, remainingStack := remainingStack }
          else
            .inr { w with relativePath := w.relativePath ++ [nextChar]
                          remainingStack := remainingStack ++ [stackedChildren currentNode] }

/-- The loop; `none` if `fuel` rounds are not enough. -/
def walk (db : RocksDB) (root : TrieNode) (expandedPrefix : Bytes) (maxItems : Nat) :
    Nat → PageWalk → Option PageResult
  | 0, _ => none
  | fuel + 1, w =>
    match walkStep db root expandedPrefix maxItems w with
    | .inl result => some result
    | .inr w => walk db root expandedPrefix maxItems fuel w

/-- `MerkleTrie::get_paged_values_of_subtree`. (Reading a node keeps it in memory; nothing else of the trie
    changes.) -/
def getPagedValuesOfSubtree (fuel : Nat) (t : MerkleTrie) (db : RocksDB) (pfx : Bytes) (maxItems : Nat)
    (pageToken : Option String) : Option PageResult :=
  match t.root with
  | none => some ([], .error .trieNotInitialized)
  | some root =>
    let expandedPrefix := expandNibbles pfx
    match root.getNodeFromTrie db [] expandedPrefix with
    | none => some ([], .ok none)
    | some subtreeNode =>
      match decodeGiven pageToken with
      | .error e => some ([], .error e)
      | .ok (some []) => some ([], .error (.invalidPageToken "<Empty token>"))
      | .ok (some (relativePath :: remainingStack)) =>
        if relativePath.length ≠ remainingStack.length - 1 then
          some ([], .error (.invalidPageToken
            (String.ofList ((Hex.encode relativePath).map fun digit => Char.ofNat digit.toNat))))
        else walk db root expandedPrefix maxItems fuel ⟨[], relativePath, remainingStack⟩
      | .ok none =>
        if subtreeNode.isLeaf then
          match leafKeys subtreeNode with
          | .error e => some ([], .error e)
          | .ok keys => some (keys, .ok none)
        else if (stackedChildren subtreeNode).isEmpty then
          some ([], .error (.invalidState
            ("Non-leaf node " ++ toString (expandedPrefix.map UInt8.toNat) ++ " didn't have any children")))
        else walk db root expandedPrefix maxItems fuel ⟨[], [], [stackedChildren subtreeNode]⟩

/-- The pages of repeated calls, each with the token of the one before, until there is no token. `none` if a
    call fails, or if `calls` calls (of `fuel` rounds each) are not enough. -/
def pagesFrom (fuel : Nat) (t : MerkleTrie) (db : RocksDB) (pfx : Bytes) (maxItems : Nat) :
    Nat → Option String → Option (List (List Bytes))
  | 0, _ => none
  | calls + 1, token =>
    match getPagedValuesOfSubtree fuel t db pfx maxItems token with
    | some (page, .ok none) => some [page]
    | some (page, .ok (some token)) => (pagesFrom fuel t db pfx maxItems calls (some token)).map (page :: ·)
    | _ => none

end model

end MerkleTrie

/-! ## Nibbles -/

@[simp] theorem combinePairs_expandNibbles (key : Bytes) : combinePairs (expandNibbles key) = key := by
  induction key with
  | nil => rfl
  | cons a as ih =>
    rw [expandNibbles_cons, combinePairs, ih]
    congr 1
    apply UInt8.toNat_inj.1
    have hlow := toNat_lowNibble a
    have hhigh := toNat_highNibble a
    have ha := a.toNat_lt
    have hmask : (a &&& 0x0F &&& 0x0F) = a &&& 0x0F := by rw [UInt8.and_assoc]; rfl
    have hshift : (a >>> 4 <<< 4).toNat = a.toNat / 16 * 2 ^ 4 := by
      rw [UInt8.toNat_shiftLeft, hhigh, Nat.shiftLeft_eq]
      show a.toNat / 16 * 2 ^ 4 % 2 ^ 8 = _
      omega
    rw [hmask, UInt8.toNat_or, hshift, hlow, ← Nat.shiftLeft_eq,
      ← Nat.shiftLeft_add_eq_or_of_lt (by omega : a.toNat % 16 < 2 ^ 4), Nat.shiftLeft_eq]
    omega

theorem combineNibbles_expandNibbles (key : Bytes) : combineNibbles (expandNibbles key) = .ok key := by
  rw [combineNibbles, expandNibbles_length, if_pos (Nat.mul_mod_right 2 _), combinePairs_expandNibbles]

theorem compare_nibbles (x y : UInt8) :
    (compare (x >>> 4) (y >>> 4)).then (compare (x &&& 0x0F) (y &&& 0x0F)) = compare x y := by
  simp only [UInt8.compare_eq_toNat_compare_toNat, toNat_highNibble, toNat_lowNibble, compare_div_mod]

theorem bytesCompare_expandNibbles (a b : Bytes) :
    bytesCompare (expandNibbles a) (expandNibbles b) = bytesCompare a b := by
  induction a generalizing b with
  | nil => cases b <;> rfl
  | cons x a ih =>
    cases b with
    | nil => rfl
    | cons y b =>
      rw [expandNibbles_cons, expandNibbles_cons, bytesCompare_cons, bytesCompare_cons, bytesCompare_cons, ih,
        ← compare_nibbles x y, Ordering.then_assoc]

theorem bytesCompare_of_snoc {p k k' : Bytes} {c c' : UInt8} (hk : p ++ [c] <+: k) (hk' : p ++ [c'] <+: k')
    (hc : c < c') :
    bytesCompare k k' = .lt := by
  obtain ⟨t, rfl⟩ := hk
  obtain ⟨t', rfl⟩ := hk'
  have hself : bytesCompare p p = .eq := bytesCompare_eq_iff.2 rfl
  rw [List.append_assoc, List.append_assoc, bytesCompare_append _ _ rfl, hself, List.singleton_append,
    List.singleton_append, bytesCompare_cons, Std.compare_eq_lt.2 hc]
  rfl

variable {α : Type}

theorem ByteMap.chars_sorted (m : ByteMap α) : m.chars.Pairwise (· < ·) := by
  refine List.Pairwise.filter _ ?_
  rw [ByteMap.allBytes, List.pairwise_map]
  refine (List.pairwise_lt_range (n := 256)).imp_of_mem fun {a b} ha hb hab => ?_
  rw [List.mem_range] at ha hb
  rw [UInt8.lt_iff_toNat_lt, UInt8.toNat_ofNat', UInt8.toNat_ofNat']
  omega

theorem ByteMap.length_chars_le (m : ByteMap α) : m.chars.length ≤ 256 := by
  refine (List.length_filter_le _ _).trans ?_
  rw [ByteMap.allBytes, List.length_map, List.length_range]

/-! ## Page tokens -/

theorem decodeSegments_encodeSegments (segments : List Bytes) (rest : Bytes)
    (hlen : ∀ part ∈ segments, part.length < 2 ^ 32) :
    decodeSegments segments.length (encodeSegments segments ++ rest) = .ok (segments, rest) := by
  induction segments with
  | nil => rfl
  | cons part segments ih =>
    have hpart : (fromBeBytes (toBeBytes part.length.toUInt32)) = part.length := by
      rw [fromBeBytes_toBeBytes, UInt32.toNat_ofNat_of_lt' (hlen part (.head _))]
    have hfour := length_toBeBytes part.length.toUInt32
    have hbytes : encodeSegments (part :: segments) ++ rest =
        toBeBytes part.length.toUInt32 ++ (part ++ (encodeSegments segments ++ rest)) := by
      simp [encodeSegments]
    rw [hbytes, List.length_cons, decodeSegments, if_neg (by rw [List.length_append, hfour]; omega),
      List.take_left' hfour, List.drop_left' hfour, hpart]
    simp only
    rw [if_neg (by rw [List.length_append]; omega), List.drop_left, List.take_left,
      ih fun part hp => hlen part (.tail _ hp)]

theorem encodeSegments_of_decodeSegments {count : Nat} {bytes rest : Bytes} {out : List Bytes}
    (h : decodeSegments count bytes = .ok (out, rest)) :
    out.length = count ∧ encodeSegments out ++ rest = bytes := by
  induction count generalizing bytes out with
  | zero =>
    cases h
    exact ⟨rfl, rfl⟩
  | succ count ih =>
    rw [decodeSegments] at h
    split at h
    · cases h
    next hfour =>
      dsimp only at h
      split at h
      · cases h
      next hlen =>
        cases hrest : decodeSegments count ((bytes.drop 4).drop (fromBeBytes (bytes.take 4))) with
        | error e =>
          rw [hrest] at h
          cases h
        | ok read =>
          rw [hrest] at h
          cases h
          obtain ⟨hcount, hbytes⟩ := ih hrest
          refine ⟨congrArg (· + 1) hcount, ?_⟩
          rw [encodeSegments, List.flatMap_cons, List.length_take, Nat.min_eq_left (Nat.le_of_not_lt hlen),
            toBeBytes_fromBeBytes (by rw [List.length_take]; omega), List.append_assoc, List.append_assoc]
          exact (congrArg (_ ++ ·) ((congrArg (_ ++ ·) hbytes).trans (List.take_append_drop _ _))).trans
            (List.take_append_drop _ _)

/-- **Tokens are read back as they were written**, as long as their lengths fit into 32 bits. -/
theorem decode_encodeTriePageToken [Base64] {token : List Bytes} (hne : token ≠ [])
    (hcount : token.length < 2 ^ 32) (hlen : ∀ part ∈ token, part.length < 2 ^ 32) :
    decodeTriePageToken (encodeTriePageToken (some token)) = .ok (some token) := by
  have hempty : token.isEmpty = false := by simpa using hne
  have hbytes : (toBeBytes token.length.toUInt32 ++ encodeSegments token).length ≥ 4 := by
    rw [List.length_append, length_toBeBytes]
    omega
  have hcode : encodeTriePageToken (some token) =
      Base64.encode (toBeBytes token.length.toUInt32 ++ encodeSegments token) := by
    simp only [encodeTriePageToken, hempty, Bool.false_eq_true, if_false]
  have hdecode := Base64.decode_encode (toBeBytes token.length.toUInt32 ++ encodeSegments token)
  have htext : (encodeTriePageToken (some token)).isEmpty = false := by
    rw [hcode, Bool.eq_false_iff]
    intro htext
    rw [String.isEmpty_iff.1 htext, Base64.decode_empty] at hdecode
    rw [← Except.ok.inj hdecode, List.length_nil] at hbytes
    omega
  have hnat : fromBeBytes (toBeBytes token.length.toUInt32) = token.length := by
    rw [fromBeBytes_toBeBytes, UInt32.toNat_ofNat_of_lt' hcount]
  have hsegments := decodeSegments_encodeSegments token [] hlen
  rw [List.append_nil] at hsegments
  rw [decodeTriePageToken, htext, hcode, hdecode]
  simp only [Bool.false_eq_true, if_false]
  rw [if_neg (by omega), List.take_left' (length_toBeBytes _), List.drop_left' (length_toBeBytes _),
    hnat, hsegments]
  simp [hempty]

/-! ## The keys of a sub-tree -/

namespace TrieNode

/-- The sub-tree of `n` at `p` has the keys `ks`, in order; `w` bounds the rounds that a walk spends on it. -/
inductive Lists (db : RocksDB) : TrieNode → Bytes → Nat → List Bytes → Prop
  | leaf {n : TrieNode} {p : Bytes} (hleaf : n.isLeaf = true)
      (hkey : ∀ k ∈ n.key, Admissible k ∧ p <+: k ∧ uncompactedLength ≤ p.length) :
        Lists db n p 1 n.key.toList
  | inner {n : TrieNode} {p : Bytes} (child : UInt8 → TrieNode) (w : UInt8 → Nat) (ks : UInt8 → List Bytes)
      (hleaf : n.isLeaf = false) (hbranches : Branches p)
      (hload : ∀ c ∈ ByteMap.chars n.children, getOrLoadChild db n p c = .ok (child c))
      (hsub : ∀ c ∈ ByteMap.chars n.children, Lists db (child c) (p ++ [c]) (w c) (ks c)) :
      Lists db n p (((ByteMap.chars n.children).map w).sum + 2) ((ByteMap.chars n.children).flatMap ks)

variable {db : RocksDB} {n m root : TrieNode} {p k r pfx : Bytes} {c : UInt8} {w : Nat}
  {ks stack : List Bytes}

theorem exists_char_of_not_isLeaf (h : n.isLeaf = false) : ∃ c, n.children c ≠ none := by
  by_contra hno
  push Not at hno
  have hempty : n.children = ByteMap.empty := funext hno
  rw [isLeaf, hempty, ByteMap.isEmpty_empty] at h
  cases h

/-- A placed sub-tree is finite: its nodes with children are not deep. -/
theorem Placed.exists_lists (hdb : StoresPlaced db) (h : Placed n p) : ∃ w ks, Lists db n p w ks := by
  have hall : ∀ p n, Placed n p → ∃ w ks, Lists db n p w ks := by
    refine extension_induction (n := 2 ^ 32) (fun p hlong n h => ?_) fun p ih n h => ?_
    · cases hleaf : n.isLeaf with
      | true => exact ⟨_, _, .leaf hleaf fun k hk => h.key hk⟩
      | false =>
        obtain ⟨c, hc⟩ := exists_char_of_not_isLeaf hleaf
        have hp := h.branches hc
        unfold Branches at hp
        omega
    · cases hleaf : n.isLeaf with
      | true => exact ⟨_, _, .leaf hleaf fun k hk => h.key hk⟩
      | false =>
        obtain ⟨c, hc⟩ := exists_char_of_not_isLeaf hleaf
        have hchild : ∀ c, ∃ m w ks, c ∈ ByteMap.chars n.children →
            getOrLoadChild db n p c = .ok m ∧ Lists db m (p ++ [c]) w ks := by
          intro c
          by_cases hc : c ∈ ByteMap.chars n.children
          · obtain ⟨m, hload, hm⟩ := h.load hdb (ByteMap.mem_chars.1 hc)
            obtain ⟨w, ks, hlists⟩ := ih (p ++ [c]) (List.prefix_append _ _) (by simp) m hm
            exact ⟨m, w, ks, fun _ => ⟨hload, hlists⟩⟩
          · exact ⟨new, 0, [], fun h => absurd h hc⟩
        choose child w ks hchild using hchild
        exact ⟨_, _, .inner child w ks hleaf (h.branches hc) (fun c hc => (hchild c hc).1)
          fun c hc => (hchild c hc).2⟩
  exact hall p n h

theorem Lists.isPrefix (h : Lists db n p w ks) (hk : k ∈ ks) : Admissible k ∧ p <+: k := by
  induction h with
  | leaf _ hkey =>
    obtain ⟨hadm, hp, -⟩ := hkey k (Option.mem_toList.1 hk)
    exact ⟨hadm, hp⟩
  | inner child w ks _ _ _ _ ih =>
    obtain ⟨c, hc, hk⟩ := List.mem_flatMap.1 hk
    obtain ⟨hadm, hp⟩ := ih c hc hk
    exact ⟨hadm, isPrefix_of_snoc hp⟩

theorem Lists.sorted (h : Lists db n p w ks) : ks.Pairwise (bytesCompare · · = .lt) := by
  induction h with
  | @leaf n _ _ _ => cases n.key <;> simp
  | @inner n p child w ks _ _ _ hsub ih =>
    refine List.pairwise_flatMap.2
      ⟨ih, (ByteMap.chars_sorted n.children).imp_of_mem fun {c c'} hc hc' hlt k hk k' hk' => ?_⟩
    exact bytesCompare_of_snoc ((hsub c hc).isPrefix hk).2 ((hsub c' hc').isPrefix hk').2 hlt

theorem mem_flatMap_chars {ks : UInt8 → List Bytes}
    (hsub : ∀ c ∈ ByteMap.chars n.children, ∀ k ∈ ks c, p ++ [c] <+: k) (hk : p ++ [c] <+: k) :
    k ∈ (ByteMap.chars n.children).flatMap ks ↔ n.children c ≠ none ∧ k ∈ ks c := by
  rw [List.mem_flatMap]
  constructor
  · rintro ⟨c', hc', hmem⟩
    obtain rfl := snoc_inj hk (hsub c' hc' k hmem)
    exact ⟨ByteMap.mem_chars.1 hc', hmem⟩
  · rintro ⟨hc, hmem⟩
    exact ⟨c, ByteMap.mem_chars.2 hc, hmem⟩

/-- **The node at a path** within the uncompacted levels has the keys below the path; there is none if no key
    is. -/
theorem Lists.getNodeFromTrie (h : Lists db n p w ks) (hlen : (p ++ r).length ≤ uncompactedLength) :
    (n.getNodeFromTrie db p r = none ∧ ∀ k ∈ ks, ¬ p ++ r <+: k) ∨
    ∃ m w' ks', n.getNodeFromTrie db p r = some m ∧ Lists db m (p ++ r) w' ks' ∧ ∀ k, k ∈ ks' ↔
      k ∈ ks ∧ p ++ r <+: k := by
  induction r generalizing n p w ks with
  | nil =>
    rw [List.append_nil]
    exact .inr ⟨n, w, ks, rfl, h, fun k => ⟨fun hk => ⟨hk, (h.isPrefix hk).2⟩, fun hk => hk.1⟩⟩
  | cons c r ih =>
    have hpath : p ++ c :: r = (p ++ [c]) ++ r := by simp
    have hfirst : ∀ {k}, p ++ c :: r <+: k → p ++ [c] <+: k := fun hk =>
      (List.prefix_append (p ++ [c]) r).trans (hpath ▸ hk)
    cases h with
    | leaf hleaf hkey =>
      -- a leaf above the path is too high to have a key
      have hnone : n.children c = none := by
        rw [(ByteMap.isEmpty_iff _).1 hleaf]
        rfl
      refine .inl ⟨by simp only [TrieNode.getNodeFromTrie, getOrLoadChild_none hnone], fun k hk hpk => ?_⟩
      have hdepth := (hkey k (Option.mem_toList.1 hk)).2.2
      rw [List.length_append, List.length_cons] at hlen
      omega
    | inner child w ks hleaf hbranches hload hsub =>
      have hmem : ∀ {k}, p ++ [c] <+: k →
          (k ∈ (ByteMap.chars n.children).flatMap ks ↔ n.children c ≠ none ∧ k ∈ ks c) :=
        mem_flatMap_chars fun c' hc' k hk => ((hsub c' hc').isPrefix hk).2
      by_cases hc : n.children c = none
      · refine .inl ⟨by simp only [TrieNode.getNodeFromTrie, getOrLoadChild_none hc], fun k hk hpk => ?_⟩
        exact ((hmem (hfirst hpk)).1 hk).1 hc
      · have hchar := ByteMap.mem_chars.2 hc
        simp only [TrieNode.getNodeFromTrie, hload c hchar, hpath]
        rcases ih (hsub c hchar) (hpath ▸ hlen) with ⟨hnone, hno⟩ | ⟨m, w', ks', hget, hlists, hiff⟩
        · refine .inl ⟨hnone, fun k hk hpk => hno k ?_ hpk⟩
          exact ((hmem ((List.prefix_append _ r).trans hpk)).1 hk).2
        · refine .inr ⟨m, w', ks', hget, hlists, fun k => (hiff k).trans ?_⟩
          refine and_congr_left fun hpk => ?_
          rw [hmem ((List.prefix_append _ r).trans hpk), and_iff_right hc]

theorem Lists.existsAt (fuel : Nat) (h : Lists db n p w ks) (hpk : p <+: k) (hk : k ≠ [])
    (hfuel : k.length + 1 ≤ fuel + p.length) : (existsAt db fuel n k p.length).2 = .ok (decide (k ∈ ks)) := by
  induction fuel generalizing n p w ks with
  | zero =>
    have := hpk.length_le
    omega
  | succ fuel ih =>
    cases h with
    | leaf hleaf hkey =>
      rw [TrieNode.existsAt, if_pos hleaf]
      cases hn : n.key with
      | none => simp [bytesCompare_eq_iff, hk.symm]
      | some k' =>
        have hsymm : k' = k ↔ k = k' := eq_comm
        simp [bytesCompare_eq_iff, hsymm]
    | inner child w ks hleaf hbranches hload hsub =>
      rw [TrieNode.existsAt, if_neg (by simp [hleaf])]
      cases hc : k[p.length]? with
      | none =>
        have hno : k ∉ (ByteMap.chars n.children).flatMap ks := by
          intro hmem
          obtain ⟨c, hc', hmem⟩ := List.mem_flatMap.1 hmem
          have hnib := (snoc_isPrefix_iff.1 ((hsub c hc').isPrefix hmem).2).2
          rw [hc] at hnib
          cases hnib
        simp [hno]
      | some c =>
        have hkc : p ++ [c] <+: k := snoc_isPrefix_iff.2 ⟨hpk, hc⟩
        have hmem := mem_flatMap_chars (fun c' hc' k hk => ((hsub c' hc').isPrefix hk).2) hkc
        simp only [← List.prefix_iff_eq_take.1 hpk, hmem]
        cases hchild : n.children c with
        | none => simp
        | some t =>
          have hchar : c ∈ ByteMap.chars n.children := ByteMap.mem_chars.2 (by rw [hchild]; simp)
          have hrec := ih (hsub c hchar) hkc (by rw [List.length_append, List.length_singleton]; omega)
          rw [List.length_append, List.length_singleton] at hrec
          simp only [hload c hchar, hrec]
          simp

theorem getNodeFromTrie_snoc (n : TrieNode) (p r : Bytes) (c : UInt8) : n.getNodeFromTrie db p (r ++ [c]) =
    (n.getNodeFromTrie db p r).bind fun m => (getOrLoadChild db m (p ++ r) c).toOption := by
  induction r generalizing n p with
  | nil => cases hload : getOrLoadChild db n p c <;> simp [TrieNode.getNodeFromTrie, hload, Except.toOption]
  | cons c' r ih =>
    cases hload : getOrLoadChild db n p c' with
    | error e => simp only [List.cons_append, TrieNode.getNodeFromTrie, hload, Option.bind_none]
    | ok m =>
      simp only [List.cons_append, TrieNode.getNodeFromTrie, hload, ih m (p ++ [c']), List.append_assoc,
        List.nil_append]

/-! ## What a walk has left to do -/

/-- The keys a walk has still to visit, from its relative path and its stack, **current level first**; `w`
    bounds the rounds that takes. -/
inductive Rest (db : RocksDB) (root : TrieNode) (pfx : Bytes) : Bytes → List Bytes → Nat → List Bytes → Prop
  | done : Rest db root pfx [] [] 0 []
  | level {path level : Bytes} {stack : List Bytes} {w : Nat} {ks : List Bytes} (ws : UInt8 → Nat)
      (kss : UInt8 → List Bytes) (hdepth : path.length = stack.length) (hbranches : Branches (pfx ++ path))
      (hshort : level.length ≤ 256)
      (hsub : ∀ c ∈ level, ∃ m, root.getNodeFromTrie db [] (pfx ++ (path ++ [c])) = some m ∧
        Lists db m (pfx ++ (path ++ [c])) (ws c) (kss c))
      (hrest : Rest db root pfx path.dropLast stack w ks) :
      Rest db root pfx path (level :: stack) ((level.map ws).sum + 1 + w) (level.reverse.flatMap kss ++ ks)

theorem Rest.enter (path : Bytes) {w' : Nat} {ks' : List Bytes}
    (hnode : root.getNodeFromTrie db [] (pfx ++ path) = some n) (h : Lists db n (pfx ++ path) w ks)
    (hleaf : n.isLeaf = false) (hdepth : path.length = stack.length)
    (hrest : Rest db root pfx path.dropLast stack w' ks') :
    ∃ w₀, w₀ < w ∧ Rest db root pfx path (MerkleTrie.stackedChildren n :: stack) (w₀ + w') (ks ++ ks') := by
  cases h with
  | leaf hleaf' => exact absurd (hleaf'.symm.trans hleaf) (by simp)
  | inner child ws kss _ hbranches hload hsub =>
    have hrev : ((MerkleTrie.stackedChildren n).map ws).sum = ((ByteMap.chars n.children).map ws).sum := by
      rw [MerkleTrie.stackedChildren, List.map_reverse, List.sum_reverse]
    have hpop : (MerkleTrie.stackedChildren n).reverse = ByteMap.chars n.children := List.reverse_reverse _
    refine ⟨((MerkleTrie.stackedChildren n).map ws).sum + 1, by omega, ?_⟩
    rw [← hpop]
    refine .level ws kss hdepth hbranches ?_ (fun c hc => ?_) hrest
    · rw [MerkleTrie.stackedChildren, List.length_reverse]
      exact ByteMap.length_chars_le _
    · have hc : c ∈ ByteMap.chars n.children := List.mem_reverse.1 hc
      refine ⟨child c, ?_, by rw [← List.append_assoc]; exact hsub c hc⟩
      rw [← List.append_assoc, getNodeFromTrie_snoc, hnode]
      simp only [Option.bind_some, List.nil_append, hload c hc]
      rfl

theorem Rest.token [Base64] {path : Bytes} (h : Rest db root pfx path stack.reverse w ks) :
    decodeTriePageToken (encodeTriePageToken (some (path :: stack))) = .ok (some (path :: stack)) ∧
      path.length = stack.length - 1 := by
  have hbound : path.length ≤ stack.length ∧ stack.length + 1 < 2 ^ 32 ∧ path.length = stack.length - 1 := by
    rw [← (List.length_reverse : stack.reverse.length = stack.length)]
    generalize stack.reverse = stack at h
    cases h with
    | done => simp
    | level ws kss hdepth hbranches =>
      rw [Branches, List.length_append] at hbranches
      rw [List.length_cons]
      omega
  have hlevels :
      ∀ {path stack w ks}, Rest db root pfx path stack w ks → ∀ level ∈ stack, level.length < 2 ^ 32 := by
    intro path stack w ks h
    induction h with
    | done => exact fun _ hl => nomatch hl
    | level ws kss hdepth hbranches hshort hsub hrest ih =>
      intro l hl
      obtain rfl | hl := List.mem_cons.1 hl
      · omega
      · exact ih l hl
  refine ⟨decode_encodeTriePageToken (by simp) (by rw [List.length_cons]; omega)
    fun part hpart => ?_, hbound.2.2⟩
  obtain rfl | hpart := List.mem_cons.1 hpart
  · omega
  · exact hlevels h part (List.mem_reverse.2 hpart)

end TrieNode

namespace MerkleTrie

variable [Base64] {db : RocksDB} {root : TrieNode} {pfx : Bytes} {maxItems : Nat} {w : Nat} {ks : List Bytes}
  {s : PageWalk}

omit [Base64] in
theorem leafKeys_eq {n : TrieNode} (h : ∀ k ∈ n.key, Admissible k) :
    leafKeys n = .ok (n.key.toList.map combinePairs) := by
  unfold leafKeys
  cases hk : n.key with
  | none => rfl
  | some k =>
    have hadm := h k hk
    have hne : k.isEmpty = false := by simpa using hadm.ne_nil
    obtain ⟨key, rfl, -⟩ := hadm
    simp only [hne, combineNibbles_expandNibbles, Option.toList_some, List.map_cons,
      combinePairs_expandNibbles]
    rfl

/-- **One round**: the walk is over, or it goes on with less to do, having found at most one key. -/
theorem walkStep_spec (maxItems : Nat) (h : Rest db root pfx s.relativePath s.remainingStack.reverse w ks)
    (hmax : s.leafKeys.length < maxItems) :
    (walkStep db root pfx maxItems s = .inl (s.leafKeys, .ok none) ∧ ks = []) ∨
    ∃ s' w' found ks', walkStep db root pfx maxItems s = .inr s' ∧ ks = found ++ ks' ∧ found.length ≤ 1 ∧
      s'.leafKeys = s.leafKeys ++ found.map combinePairs ∧ w' < w ∧
      Rest db root pfx s'.relativePath s'.remainingStack.reverse w' ks' := by
  obtain ⟨leafKeys, path, stack⟩ := s
  simp only at h hmax
  rw [walkStep, if_neg (Nat.not_le.2 hmax)]
  obtain rfl | ⟨stack, level, rfl⟩ := List.eq_nil_or_concat stack
  · cases h with
    | done => exact .inl ⟨rfl, rfl⟩
  simp only [List.concat_eq_append, List.reverse_append, List.reverse_singleton, List.singleton_append] at h
  simp only [List.concat_eq_append, List.getLast?_concat, List.dropLast_concat]
  cases h with
  | @level _ _ _ w ks ws kss hdepth hbranches hshort hsub hrest =>
    obtain rfl | ⟨level, c, rfl⟩ := List.eq_nil_or_concat level
    · refine .inr ⟨_, w, [], ks, rfl, rfl, by simp, by simp, ?_, hrest⟩
      omega
    simp only [List.concat_eq_append, List.getLast?_concat, List.dropLast_concat] at hsub hshort ⊢
    obtain ⟨m, hnode, hlists⟩ := hsub c (by simp)
    -- what remains of the level once `c` is popped
    have hlevel : Rest db root pfx path (level :: stack.reverse) ((level.map ws).sum + 1 + w)
        (level.reverse.flatMap kss ++ ks) :=
      .level ws kss hdepth hbranches (by rw [List.length_append] at hshort; omega)
        (fun c' hc' => hsub c' (List.mem_append_left _ hc')) hrest
    simp only [hnode, List.map_append, List.sum_append, List.map_singleton, List.sum_singleton,
      List.reverse_append, List.reverse_singleton, List.singleton_append, List.flatMap_cons,
      List.append_assoc]
    cases hleaf : m.isLeaf with
    | true =>
      generalize hw : ws c = wc at hlists
      generalize hk : kss c = kc at hlists
      cases hlists with
      | inner _ _ _ hinner => exact absurd (hinner.symm.trans hleaf) (by simp)
      | leaf _ hkey =>
        rw [leafKeys_eq fun k hk => (hkey k hk).1]
        refine .inr ⟨_, (level.map ws).sum + 1 + w, _, _, rfl, rfl, ?_, rfl, by omega, by simpa using hlevel⟩
        cases m.key <;> simp
    | false =>
      have hpath : (path ++ [c]).length = (level :: stack.reverse).length := by
        simp [hdepth]
      obtain ⟨w₀, hlt, hrest'⟩ := Rest.enter (path ++ [c]) hnode hlists hleaf hpath
        (by rw [List.dropLast_concat]; exact hlevel)
      refine .inr ⟨_, _, [], _, rfl, rfl, by simp, by simp, ?_, by simpa using hrest'⟩
      omega

/-- **A whole call**: it ends, finds the next keys of the walk, and either nothing is left or the page is full
    and the token holds what is left. -/
theorem walk_spec (maxItems fuel : Nat) (h : Rest db root pfx s.relativePath s.remainingStack.reverse w ks)
    (hfuel : w < fuel) (hmax : s.leafKeys.length ≤ maxItems) :
    ∃ found token, walk db root pfx maxItems fuel s = some (s.leafKeys ++ found.map combinePairs, .ok token) ∧
      s.leafKeys.length + found.length ≤ maxItems ∧
      (token = none ∧ ks = found ∨ ∃ path stack w' ks',
        token = some (encodeTriePageToken (some (path :: stack))) ∧
        ks = found ++ ks' ∧ s.leafKeys.length + found.length = maxItems ∧ w' ≤ w ∧
        Rest db root pfx path stack.reverse w' ks') := by
  induction fuel generalizing s w ks with
  | zero => omega
  | succ fuel ih =>
    by_cases hfull : maxItems ≤ s.leafKeys.length
    · refine ⟨[], some (encodeTriePageToken (some (s.relativePath :: s.remainingStack))), ?_, hmax, .inr ?_⟩
      · rw [walk, walkStep, if_pos hfull, List.map_nil, List.append_nil]
      · exact ⟨_, _, w, ks, rfl, rfl, Nat.le_antisymm hmax hfull, le_refl w, h⟩
    rcases walkStep_spec maxItems h (by omega)
      with ⟨hstep, rfl⟩ | ⟨s', w', found, ks', hstep, rfl, hone, hkeys, hlt, hrest⟩
    · refine ⟨[], none, ?_, hmax, .inl ⟨rfl, rfl⟩⟩
      rw [walk, hstep, List.map_nil, List.append_nil]
    · have hlen : s'.leafKeys.length = s.leafKeys.length + found.length := by
        rw [hkeys, List.length_append, List.length_map]
      obtain ⟨found', token, hwalk, hle, hend⟩ := ih hrest (by omega) (by omega)
      refine ⟨found ++ found', token, ?_, by rw [List.length_append]; omega, ?_⟩
      · rw [walk, hstep]
        simp only [hwalk, hkeys, List.map_append, List.append_assoc]
      · rcases hend with ⟨rfl, rfl⟩ | ⟨path, stack, w'', ks'', rfl, rfl, hmax', hle', hrest'⟩
        · exact .inl ⟨rfl, rfl⟩
        · refine .inr ⟨path, stack, w'', ks'', rfl, (List.append_assoc _ _ _).symm, ?_, by omega, hrest'⟩
          rw [List.length_append]
          omega

/-! ## All pages -/

variable [Hex] {t : MerkleTrie} {m : TrieNode}

/-- Calls that go on from a place in the walk, whether it comes from a token or is the start, return the rest
    of it. -/
theorem pagesFrom_rest (fuel calls : Nat) {path : Bytes} {stack : List Bytes} {start : Option String}
    (hroot : t.root = some root) (hnode : root.getNodeFromTrie db [] (expandNibbles pfx) = some m)
    (hcall : getPagedValuesOfSubtree fuel t db pfx maxItems start =
      walk db root (expandNibbles pfx) maxItems fuel ⟨[], path, stack⟩)
    (h : Rest db root (expandNibbles pfx) path stack.reverse w ks) (hmax : 0 < maxItems) (hfuel : w < fuel)
    (hcalls : ks.length < calls) : ∃ pages, pagesFrom fuel t db pfx maxItems calls start = some pages ∧
      pages.flatten = ks.map combinePairs ∧ ∀ page ∈ pages, page.length ≤ maxItems := by
  induction calls generalizing path stack w ks start with
  | zero => omega
  | succ calls ih =>
    obtain ⟨found, token, hwalk, hle, hend⟩ :=
      walk_spec maxItems fuel (s := ⟨[], path, stack⟩) h hfuel (Nat.zero_le _)
    rw [pagesFrom, hcall, hwalk]
    simp only [List.length_nil, Nat.zero_add, List.nil_append] at hle hend ⊢
    rcases hend with ⟨rfl, rfl⟩ | ⟨path', stack', w', ks', rfl, rfl, hfull, hle', hrest⟩
    · exact ⟨_, rfl, by simp, by simpa using hle⟩
    · obtain ⟨htoken, hlen⟩ := hrest.token
      rw [List.length_append] at hcalls
      have hnext : getPagedValuesOfSubtree fuel t db pfx maxItems
          (some (encodeTriePageToken (some (path' :: stack')))) =
          walk db root (expandNibbles pfx) maxItems fuel ⟨[], path', stack'⟩ := by
        simp only [getPagedValuesOfSubtree, hroot, hnode, decodeGiven, htoken, hlen, ne_eq,
          not_true_eq_false, if_false]
      obtain ⟨pages, hpages, hflat, hshort⟩ := ih hnext hrest (by omega) (by omega)
      simp only [hpages, Option.map_some]
      refine ⟨_, rfl, by rw [List.flatten_cons, hflat, List.map_append], fun page hpage => ?_⟩
      obtain rfl | hpage := List.mem_cons.1 hpage
      · rw [List.length_map]
        exact hle
      · exact hshort page hpage

theorem pagesFrom_lists (fuel calls : Nat) (hroot : t.root = some root)
    (hnode : root.getNodeFromTrie db [] (expandNibbles pfx) = some m)
    (h : Lists db m (expandNibbles pfx) w ks) (hmax : 0 < maxItems) (hfuel : w < fuel)
    (hcalls : ks.length + 1 < calls) :
    ∃ pages, pagesFrom fuel t db pfx maxItems calls none = some pages ∧
      pages.flatten = ks.map combinePairs ∧ ∀ page ∈ pages, page.length ≤ maxItems := by
  obtain _ | calls := calls
  · omega
  cases hleaf : m.isLeaf with
  | true =>
    cases h with
    | inner _ _ _ hinner => exact absurd (hinner.symm.trans hleaf) (by simp)
    | leaf _ hkey =>
      have hcall : getPagedValuesOfSubtree fuel t db pfx maxItems none =
          some (m.key.toList.map combinePairs, .ok none) := by
        simp only [getPagedValuesOfSubtree, hroot, hnode, decodeGiven, hleaf, if_true,
          leafKeys_eq fun k hk => (hkey k hk).1]
      rw [pagesFrom, hcall]
      refine ⟨_, rfl, by simp, fun page hpage => ?_⟩
      rw [List.mem_singleton.1 hpage, List.length_map]
      have hone : m.key.toList.length ≤ 1 := by cases m.key <;> simp
      omega
  | false =>
    have hstart : Rest db root (expandNibbles pfx) ([] : Bytes).dropLast [] 0 [] := .done
    obtain ⟨w₀, hlt, hrest⟩ := Rest.enter [] (by rw [List.append_nil]; exact hnode)
      (by rw [List.append_nil]; exact h) hleaf rfl hstart
    have hchildren : (stackedChildren m).isEmpty = false := by
      obtain ⟨c, hc⟩ := exists_char_of_not_isLeaf hleaf
      have hmem : c ∈ stackedChildren m := List.mem_reverse.2 (ByteMap.mem_chars.2 hc)
      simpa using List.ne_nil_of_mem hmem
    have hwhole :
        Rest db root (expandNibbles pfx) [] [stackedChildren m].reverse w₀ ks := by simpa using hrest
    refine pagesFrom_rest fuel (calls + 1) hroot hnode ?_ hwhole hmax (by omega) (by omega)
    simp only [getPagedValuesOfSubtree, hroot, hnode, decodeGiven, hleaf, hchildren,
      Bool.false_eq_true, if_false]

end MerkleTrie

namespace TrieState

/-- **The pages of a sub-tree are its keys.** In every reachable state, for every prefix within the
    uncompacted levels and every page limit, calling with the returned token until there is none ends,
    whatever the bounds on rounds and calls if they are large enough; the pages respect the limit, and
    together they are the keys with the prefix that `exists` reports, in increasing order. (On an empty trie
    `exists` also reports the empty key, which no call inserts.) -/
theorem pagedValues_complete [Blake3] [Base64] [Hex] {s : TrieState} (h : Reachable s) {pfx : Bytes}
    (hpfx : pfx.length ≤ 6) {maxItems : Nat} (hmax : 1 ≤ maxItems) :
    ∃ bound, ∀ fuel calls, bound ≤ fuel → bound ≤ calls →
      ∃ pages, s.trie.pagesFrom fuel s.db pfx maxItems calls none = some pages ∧
        (∀ page ∈ pages, page.length ≤ maxItems) ∧ pages.flatten.Pairwise (bytesCompare · · = .lt) ∧
        ∀ key, key ∈ pages.flatten ↔ pfx <+: key ∧ key ≠ [] ∧ (s.trie.existsKey s.db key).2 = .ok true := by
  obtain ⟨root, hroot⟩ := h.placed
  obtain ⟨w, ks, hlists⟩ := hroot.placed.exists_lists hroot.db
  have hexists : ∀ key, key ≠ [] → ((s.trie.existsKey s.db key).2 = .ok true ↔ expandNibbles key ∈ ks) := by
    intro key hkey
    have hne : expandNibbles key ≠ [] := fun hnil => hkey (expandNibbles_injective hnil)
    have hex := hlists.existsAt (MerkleTrie.depthBound [expandNibbles key]) List.nil_prefix hne
      (by simp [MerkleTrie.depthBound])
    simp only [MerkleTrie.existsKey, hroot.root_eq]
    rw [List.length_nil] at hex
    rw [hex, Except.ok.injEq, decide_eq_true_iff]
  have hdepth : ([] ++ expandNibbles pfx).length ≤ uncompactedLength := by
    rw [List.nil_append, expandNibbles_length, uncompactedLength]
    omega
  rcases hlists.getNodeFromTrie hdepth with ⟨hnone, hno⟩ | ⟨m, w', ks', hnode, hsub, hmem⟩
  · -- no node, no keys: one empty page
    refine ⟨1, fun fuel calls _ hcalls => ⟨[[]], ?_, by simp, by simp, fun key => ?_⟩⟩
    · obtain _ | calls := calls
      · omega
      have hcall : s.trie.getPagedValuesOfSubtree fuel s.db pfx maxItems none = some ([], .ok none) := by
        simp only [MerkleTrie.getPagedValuesOfSubtree, hroot.root_eq, hnone]
      rw [MerkleTrie.pagesFrom, hcall]
    · refine ⟨fun hkey => by simp at hkey, ?_⟩
      rintro ⟨hkey, hne, hex⟩
      exact absurd (expandNibbles_isPrefix_iff.2 hkey) (hno _ ((hexists key hne).1 hex))
  · rw [List.nil_append] at hsub hmem
    refine ⟨w' + ks'.length + 2, fun fuel calls hfuel hcalls => ?_⟩
    obtain ⟨pages, hpages, hflat, hshort⟩ :=
      MerkleTrie.pagesFrom_lists fuel calls hroot.root_eq hnode hsub hmax
      (by omega) (by omega)
    refine ⟨pages, hpages, hshort, ?_, fun key => ?_⟩
    · rw [hflat, List.pairwise_map]
      refine hsub.sorted.imp_of_mem fun {a b} ha hb hab => ?_
      obtain ⟨key, rfl, -⟩ := (hsub.isPrefix ha).1
      obtain ⟨key', rfl, -⟩ := (hsub.isPrefix hb).1
      rw [combinePairs_expandNibbles, combinePairs_expandNibbles, ← bytesCompare_expandNibbles]
      exact hab
    · rw [hflat, List.mem_map]
      constructor
      · rintro ⟨k, hk, rfl⟩
        obtain ⟨hadm, -⟩ := hsub.isPrefix hk
        have hne := hadm.ne_nil
        obtain ⟨key, rfl, -⟩ := hadm
        rw [combinePairs_expandNibbles]
        obtain ⟨hks, hpk⟩ := (hmem _).1 hk
        have hkey : key ≠ [] := fun hnil => hne (by rw [hnil]; rfl)
        exact ⟨expandNibbles_isPrefix_iff.1 hpk, hkey, (hexists key hkey).2 hks⟩
      · rintro ⟨hpk, hne, hex⟩
        refine ⟨expandNibbles key, (hmem _).2 ⟨(hexists key hne).1 hex, expandNibbles_isPrefix_iff.2 hpk⟩, ?_⟩
        exact combinePairs_expandNibbles key

/-- A base64 engine to run the model with: every byte is one character. -/
@[reducible] def plainBase64 : Base64 where
  encode bytes := String.ofList (bytes.map fun b => Char.ofNat b.toNat)
  decode text := .ok (text.toList.map fun c => UInt8.ofNat c.toNat)
  decode_encode bytes := by
    have hall : ∀ n < 256, UInt8.ofNat (Char.ofNat n).toNat = UInt8.ofNat n := by decide +kernel
    have hchar : (fun c : Char => UInt8.ofNat c.toNat) ∘ (fun b : UInt8 => Char.ofNat b.toNat) = id := by
      funext b
      exact (hall b.toNat b.toNat_lt).trans UInt8.ofNat_toNat
    rw [String.toList_ofList, List.map_map, hchar, List.map_id]
  decode_empty := rfl

section sample

variable [Blake3]

def pagedKeys : List Bytes := [[7, 2, 3, 4, 5, 6, 7], [7, 2, 3, 4, 5, 6, 8], [9, 2, 3, 4, 5, 6, 7]]

/-- Two keys with the prefix `[7]` and one without, before they are committed. -/
def pagedPending (s : TrieState) : TrieState :=
  ⟨(s.trie.insert s.db s.txnBatch pagedKeys).1, s.db, (s.trie.insert s.db s.txnBatch pagedKeys).2.1⟩

/-- The trie after the commit. -/
def pagedSample : TrieState := (pagedPending (initial fun _ => none)).apply .commit

theorem pagedSample_reachable : Reachable pagedSample := by
  have hstart : Reachable (initial fun _ => none) := .start fun _ => rfl
  have hpending : Reachable (pagedPending (initial fun _ => none)) := hstart.insert pagedKeys (by decide)
  exact hpending.step .commit (by simp)

end sample

theorem pagedValues_complete_sample :
    let _ := MerkleTrie.constHash
    let _ := plainBase64
    let _ := lowerHex
    ∃ bound, ∀ fuel calls, bound ≤ fuel → bound ≤ calls →
      ∃ pages, pagedSample.trie.pagesFrom fuel pagedSample.db [7] 1 calls none = some pages ∧
        (∀ page ∈ pages, page.length ≤ 1) ∧ pages.flatten.Pairwise (bytesCompare · · = .lt) ∧
        ∀ key, key ∈ pages.flatten ↔
          [7] <+: key ∧ key ≠ [] ∧ (pagedSample.trie.existsKey pagedSample.db key).2 = .ok true := by
  intro hash engine hex
  exact @pagedValues_complete hash engine hex _ (@pagedSample_reachable hash) _ (by decide) _ (by decide)

end TrieState

/-! ## Tokens are exact -/

/-- **Page tokens round-trip**: a token is read back as it was written, and what is read as a token is written
    back as the bytes it was read from. -/
theorem triePageToken_roundTrip [Base64] :
    (∀ token : List Bytes, token.length < 2 ^ 32 → (∀ part ∈ token, part.length < 2 ^ 32) →
      decodeTriePageToken (encodeTriePageToken (some token)) =
        .ok (if token = [] then none else some token)) ∧
    ∀ encoded token, decodeTriePageToken encoded = .ok (some token) →
      ∃ bytes, Base64.decode encoded = .ok bytes ∧
      encodeTriePageToken (some token) = Base64.encode bytes := by
  constructor
  · intro token hcount hlen
    by_cases hne : token = []
    · rw [hne]
      rfl
    · rw [if_neg hne]
      exact decode_encodeTriePageToken hne hcount hlen
  · intro encoded token h
    unfold decodeTriePageToken at h
    split at h
    · cases h
    split at h
    · cases h
    next bytes hdecode =>
      refine ⟨bytes, hdecode, ?_⟩
      split at h
      · cases h
      next hfour =>
        split at h
        · cases h
        next out rest hread =>
          split at h
          · cases h
          next hrest =>
            split at h
            · cases h
            next hne =>
              cases h
              obtain ⟨hcount, hbytes⟩ := encodeSegments_of_decodeSegments hread
              rw [not_not.1 hrest, List.append_nil] at hbytes
              simp only [encodeTriePageToken, if_neg hne]
              rw [hcount, hbytes, toBeBytes_fromBeBytes (by rw [List.length_take]; omega),
                List.take_append_drop]

theorem triePageToken_roundTrip_pair :
    let _ := TrieState.plainBase64
    decodeTriePageToken (encodeTriePageToken (some [[1], [2, 3]])) = .ok (some [[1], [2, 3]]) ∧
      ∃ bytes, Base64.decode (encodeTriePageToken (some [[1], [2, 3]])) = .ok bytes ∧
        encodeTriePageToken (some [[1], [2, 3]]) = Base64.encode bytes := by
  intro engine
  have hread := (@triePageToken_roundTrip engine).1 [[1], [2, 3]] (by decide) (by decide)
  exact ⟨hread, (@triePageToken_roundTrip engine).2 _ _ hread⟩

end Hypersnap
