import Hypersnap.Lib.EState
import Hypersnap.Proto.Message

/-!
# `Api.Conversations` — a cast with the replies to it

`build_conversation_tree` fetches the replies to a cast, adds their number to `total_replies` **before** it
goes through them, and stops going through replies once the total is at the limit. So a conversation is cut by
a whole list of replies that are counted and not in the tree. It accounts for its replies exactly if the graph
of the replies, down to the depth limit, has fewer of them than the limit (`conversation_accounts_iff`).
-/

namespace Hypersnap

inductive ConversationError where
  | castNotFound (fid : UInt64) (hash : Bytes)
  | serviceError (message : String)
  | featureDisabled
deriving DecidableEq, Repr

structure ConversationConfig where
  enabled : Bool
  maxDepth : Nat
  maxReplies : Nat
deriving DecidableEq, Repr

inductive ConversationCast where
  | mk (cast : Message) (replies : List ConversationCast) (depth : Nat)

namespace ConversationCast

def replies : ConversationCast → List ConversationCast
  | mk _ replies _ => replies

mutual
def replyCount : ConversationCast → Nat
  | mk _ replies _ => repliesCount replies

def repliesCount : List ConversationCast → Nat
  | [] => 0
  | reply :: rest => 1 + replyCount reply + repliesCount rest
end

end ConversationCast

/-- The requests to the hub: one cast, and a page of the replies to a cast. -/
structure HubService where
  getCast : UInt64 → Bytes → Except ConversationError Message
  getCastsByParent : UInt64 → Bytes → (pageSize : Nat) → Except ConversationError (List Message)

/-- `total_replies` and `actual_max_depth`. -/
structure Counters where
  totalReplies : Nat
  maxDepth : Nat
deriving DecidableEq, Repr

structure Conversation where
  root : ConversationCast
  counters : Counters

namespace ConversationService

open ConversationCast EState

/-- The loop over the replies, which breaks at the limit. -/
def buildReplies (limit : Nat)
    (build : Message → Counters → Except ConversationError (ConversationCast × Counters)) :
    List Message → Counters → Except ConversationError (List ConversationCast × Counters)
  | [], c => .ok ([], c)
  | reply :: rest, c =>
    if limit ≤ c.totalReplies then .ok ([], c)
    else do
      let (tree, c) ← build reply c
      let (trees, c) ← buildReplies limit build rest c
      .ok (tree :: trees, c)

variable (hub : HubService) (config : ConversationConfig)

def fetchReplies (fid : UInt64) (hash : Bytes) : Except ConversationError (List Message) :=
  hub.getCastsByParent fid hash config.maxReplies

/-- The first argument is `max_depth - current_depth`. -/
def buildConversationTree :
    Nat → Nat → Message → Counters → Except ConversationError (ConversationCast × Counters)
  | 0, depth, cast, c => .ok (mk cast [] depth, { c with maxDepth := max c.maxDepth depth })
  | left + 1, depth, cast, c =>
    let c := { c with maxDepth := max c.maxDepth depth }
    if config.maxReplies ≤ c.totalReplies then .ok (mk cast [] depth, c)
    else
      match cast.data with
      | none => .ok (mk cast [] depth, c)
      | some data => do
        let replies ← fetchReplies hub config data.fid cast.hash
        let (trees, c) ← buildReplies config.maxReplies (buildConversationTree left (depth + 1)) replies
          { c with totalReplies := c.totalReplies + replies.length }
        .ok (mk cast trees depth, c)

def depthLimit (depth : Option Nat) : Nat := min (depth.getD config.maxDepth) config.maxDepth

def getConversation (fid : UInt64) (hash : Bytes) (depth : Option Nat) :
    Except ConversationError Conversation :=
  if !config.enabled then .error .featureDisabled
  else do
    let rootCast ← hub.getCast fid hash
    let (root, counters) ← buildConversationTree hub config (depthLimit config depth) 0 rootCast ⟨0, 0⟩
    .ok ⟨root, counters⟩

/-! ## The graph of the replies -/

variable {hub config} {limit : Nat} {cast : Message} {tree : ConversationCast}

variable (hub config) in
/-- The replies that the hub serves for a cast; a request that fails serves none. -/
def repliesTo (cast : Message) : List Message :=
  (cast.data.bind fun data => (fetchReplies hub config data.fid cast.hash).toOption).getD []

variable (hub config) in
/-- The replies to a cast, the replies to these, and so on, down to a depth. -/
def graphReplies : Nat → Message → Nat
  | 0, _ => 0
  | left + 1, cast =>
    (repliesTo hub config cast).length + ((repliesTo hub config cast).map (graphReplies left)).sum

/-! ## What is counted and what is in the tree -/

/-- From one total to another, `counted` replies were counted, `n` of what followed are in a tree, and the
    graph has `size` more. They agree below the limit, and past it some are missing. -/
structure Accounts (limit counted size : Nat) (c c' : Counters) (n : Nat) : Prop where
  le : c.totalReplies ≤ c'.totalReplies
  below : c'.totalReplies < limit → n + c.totalReplies = c'.totalReplies + counted
  cut : c.totalReplies < limit → limit ≤ c'.totalReplies → n + c.totalReplies < c'.totalReplies + counted
  full : limit ≤ c.totalReplies → n = 0 ∧ c'.totalReplies = c.totalReplies
  most : c'.totalReplies ≤ c.totalReplies + size
  all : c'.totalReplies < limit → c'.totalReplies = c.totalReplies + size

theorem buildReplies_accounts
    {build : Message → Counters → Except ConversationError (ConversationCast × Counters)}
    (size : Message → Nat)
    (hbuild : ∀ {m c tree c'}, build m c = .ok (tree, c') → Accounts limit 0 (size m) c c' (replyCount tree))
    {replies : List Message} {c c' : Counters} {trees : List ConversationCast}
    (h : buildReplies limit build replies c = .ok (trees, c')) :
    Accounts limit replies.length (replies.map size).sum c c' (repliesCount trees) := by
  have hnil : repliesCount [] = 0 := rfl
  induction replies generalizing c trees with
  | nil =>
    cases h
    rw [List.length_nil, List.map_nil, List.sum_nil]
    constructor <;> omega
  | cons reply rest ih =>
    rw [List.length_cons, List.map_cons, List.sum_cons]
    unfold buildReplies at h
    split at h
    next hfull =>
      cases h
      constructor <;> omega
    next hroom =>
      obtain ⟨⟨tree, c₁⟩, htree, h⟩ := except_bind_eq_ok.1 h
      obtain ⟨⟨rest', c₂⟩, hrest, h⟩ := except_bind_eq_ok.1 h
      cases h
      obtain ⟨hle, hbelow, hcut, -, hmost, hall⟩ := hbuild htree
      obtain ⟨hle', hbelow', hcut', hfull', hmost', hall'⟩ := ih hrest
      have hcons : repliesCount (tree :: rest') = 1 + replyCount tree + repliesCount rest' := rfl
      constructor <;> omega

/-- **Everything a call can do**: return a leaf, or fetch the replies and go through them. -/
theorem buildConversationTree_cases {left depth : Nat} {c c' : Counters}
    (h : buildConversationTree hub config left depth cast c = .ok (tree, c')) :
    (tree.replies = [] ∧ replyCount tree = 0 ∧ c'.totalReplies = c.totalReplies ∧
      (config.maxReplies ≤ c.totalReplies ∨ left = 0 ∨ cast.data = none)) ∨
    ∃ left' data replies c₁, left = left' + 1 ∧ c.totalReplies < config.maxReplies ∧ cast.data = some data ∧
      fetchReplies hub config data.fid cast.hash = .ok replies ∧
      c₁.totalReplies = c.totalReplies + replies.length ∧
      buildReplies config.maxReplies (buildConversationTree hub config left' (depth + 1)) replies c₁ =
        .ok (tree.replies, c') ∧
      replyCount tree = repliesCount tree.replies := by
  cases left with
  | zero =>
    cases h
    exact .inl ⟨rfl, rfl, rfl, .inr (.inl rfl)⟩
  | succ left =>
    rw [buildConversationTree] at h
    by_cases hfull : config.maxReplies ≤ c.totalReplies
    · rw [if_pos hfull] at h
      cases h
      exact .inl ⟨rfl, rfl, rfl, .inl hfull⟩
    · rw [if_neg hfull] at h
      cases hdata : cast.data with
      | none =>
        rw [hdata] at h
        cases h
        exact .inl ⟨rfl, rfl, rfl, .inr (.inr rfl)⟩
      | some data =>
        rw [hdata] at h
        obtain ⟨replies, hreplies, h⟩ := except_bind_eq_ok.1 h
        obtain ⟨⟨trees, c₁⟩, htrees, h⟩ := except_bind_eq_ok.1 h
        cases h
        exact .inr ⟨left, data, replies, _, rfl, Nat.lt_of_not_le hfull, rfl, hreplies, rfl, htrees, rfl⟩

theorem buildConversationTree_accounts {left depth : Nat} {c c' : Counters}
    (h : buildConversationTree hub config left depth cast c = .ok (tree, c')) :
    Accounts config.maxReplies 0 (graphReplies hub config left cast) c c' (replyCount tree) := by
  induction left generalizing depth cast c c' tree with
  | zero =>
    have hnone : graphReplies hub config 0 cast = 0 := rfl
    obtain ⟨-, hcount, htotal, -⟩ | ⟨left', _, _, _, hleft, -⟩ := buildConversationTree_cases h
    · constructor <;> omega
    · cases hleft
  | succ left ih =>
    obtain ⟨-, hcount, htotal, hleaf⟩ |
      ⟨left', data, replies, c₁, hleft, hroom, hdata, hreplies, htotal, htrees, hcount⟩ :=
        buildConversationTree_cases h
    · have hall : c'.totalReplies < config.maxReplies → graphReplies hub config (left + 1) cast = 0 := by
        -- a leaf below the limit is a cast without data, which has no replies
        intro hlt
        rcases hleaf with hfull | hzero | hnone
        · omega
        · cases hzero
        · simp only [graphReplies, repliesTo, hnone]
          rfl
      constructor <;> omega
    · cases hleft
      have hserved : repliesTo hub config cast = replies := by
        rw [repliesTo, hdata, Option.bind_some, hreplies]
        rfl
      obtain ⟨hle, hbelow, hcut, hfull, hmost, hall⟩ :=
        buildReplies_accounts (graphReplies hub config left) ih htrees
      rw [graphReplies, hserved]
      constructor <;> omega

def AccountsForReplies (hub : HubService) (config : ConversationConfig) (rootCast : Message) (maxDepth : Nat)
    (conversation : Conversation) : Prop :=
  conversation.counters.totalReplies = replyCount conversation.root ∧
    replyCount conversation.root ≤ config.maxReplies ∧
    (1 ≤ maxDepth → (∃ data reply rest, rootCast.data = some data ∧
      fetchReplies hub config data.fid rootCast.hash = .ok (reply :: rest)) → conversation.root.replies ≠ [])

/-- **Conversations account for their replies** exactly if the graph has fewer than the limit, down to the
    depth. -/
theorem conversation_accounts_iff (hub : HubService) (config : ConversationConfig)
    (hlimit : 1 ≤ config.maxReplies) (fid : UInt64) (hash : Bytes) (depth : Option Nat) (rootCast : Message)
    (hroot : hub.getCast fid hash = .ok rootCast) (conversation : Conversation)
    (h : getConversation hub config fid hash depth = .ok conversation) :
    AccountsForReplies hub config rootCast (depthLimit config depth) conversation ↔
      graphReplies hub config (depthLimit config depth) rootCast < config.maxReplies := by
  unfold getConversation at h
  split at h
  · cases h
  obtain ⟨_, hcast, h⟩ := except_bind_eq_ok.1 h
  obtain ⟨⟨root, counters⟩, htree, h⟩ := except_bind_eq_ok.1 h
  cases h
  cases hroot.symm.trans hcast
  obtain ⟨-, hbelow, hcut, -, hle, heq⟩ := buildConversationTree_accounts htree
  dsimp only [AccountsForReplies] at hbelow hcut hle heq ⊢
  constructor
  · rintro ⟨hsame, -⟩
    by_contra hfull
    have := hcut hlimit (by omega)
    omega
  · intro hgraph
    have hlt : counters.totalReplies < config.maxReplies := by omega
    have hcount := hbelow hlt
    refine ⟨by omega, by omega, fun hdepth ⟨data, reply, rest, hdata, hreplies⟩ hnone => ?_⟩
    obtain ⟨-, -, -, hleaf⟩ | ⟨left, data', replies, c₁, -, -, hdata', hreplies', htotal, htrees, htree⟩ :=
      buildConversationTree_cases htree
    · rcases hleaf with hfull | hzero | hempty
      · exact absurd hlimit (Nat.not_le.2 (Nat.lt_succ_of_le hfull))
      · omega
      · rw [hdata] at hempty
        cases hempty
    · cases hdata.symm.trans hdata'
      cases hreplies.symm.trans hreplies'
      -- the replies were counted, so the tree has as many nodes
      have hle :=
        (buildReplies_accounts (graphReplies hub config left) buildConversationTree_accounts htrees).le
      rw [htree, hnone] at hcount
      simp [repliesCount] at hcount htotal
      omega

/-! ### As many replies as the limit -/

def sampleCastOf (fid : UInt64) : Message := ⟨some ⟨1, fid, 0, 1, none⟩, [1], 1, [], 1, [], none⟩

/-- User 1 has a cast with two replies, which have none. -/
def sampleHub : HubService where
  getCast _ _ := .ok (sampleCastOf 1)
  getCastsByParent fid _ _ := .ok (if fid = 1 then [sampleCastOf 2, sampleCastOf 3] else [])

/-- With room for three the conversation has both replies. -/
theorem conversation_accounts_three :
    ∃ conversation, getConversation sampleHub ⟨true, 5, 3⟩ 1 [1] none = .ok conversation ∧
      AccountsForReplies sampleHub ⟨true, 5, 3⟩ (sampleCastOf 1) 5 conversation :=
  ⟨_, rfl, (conversation_accounts_iff sampleHub ⟨true, 5, 3⟩ (by decide) 1 [1] none _ rfl _ rfl).2
    (by decide)⟩

/-- With room for two it has none, and says that there are two. -/
theorem conversation_loses_replies :
    ∃ conversation, getConversation sampleHub ⟨true, 5, 2⟩ 1 [1] none = .ok conversation ∧
      conversation.counters.totalReplies = 2 ∧ conversation.root.replies = [] :=
  ⟨_, rfl, rfl, rfl⟩

end ConversationService
end Hypersnap
