import IntLang.Proofs.Grammar.StmtSound
import IntLang.Proofs.Grammar.TokenCount

/-!
The loops of the readers have rounds enough. Every round takes a token, so a loop that has a round
for each pending token does what it would do with any more rounds. So the bound on the rounds only
makes the readers total; what they read is a matter of the tokens.
-/
namespace IntLang.Grammar

open Parse TokenStream

def pendingCount : TokenCount TokenStream where
  proper := Proper
  unread s := s.pending.length
  unread_pos {s} _ hkind := List.length_pos_iff.mpr (mt pending_eq_nil_iff.mp hkind)
  unread_le {s} _ := s.length_pending_le
  advance := by
    intro s t u hs hkind h
    obtain ⟨-, hbehind⟩ := behind_of_advance hs hkind h
    have hlength := hbehind.length
    rw [List.length_singleton] at hlength
    exact ⟨hbehind.proper, by omega⟩

theorem shorter_of_behind {s u : TokenStream} {ts : List Token} (hts : ts ≠ [])
    (h : s.Behind ts u) : pendingCount.Shorter s u := by
  have hlength := h.length
  have hpos := List.length_pos_iff.mpr hts
  have hless : u.pending.length < s.pending.length := by omega
  exact ⟨h.proper, hless⟩

/-- A loop for which it is all the same how many rounds it has, if there is one for each pending
token and at least one. -/
def Settled (loop : Nat → Parse α) : Prop :=
  ∀ s n m, s.Proper → s.pending.length ≤ n → s.pending.length ≤ m → 0 < n → 0 < m →
    loop n s = loop m s

theorem Settled.bind {loop : Nat → Parse α} (h : Settled loop) (f : α → Parse β) :
    Settled fun n => loop n >>= f :=
  fun s n m hs hn hm hpos hpos' => bind_congr_first (h s n m hs hn hm hpos hpos') f

section Expressions

variable {room : Nat} {sub : BindingPower → Parse Expr} (hsub : ReadsExpr room sub)
include hsub

theorem ReadsExpr.reads (power : BindingPower) : pendingCount.Reads (sub power) := by
  intro s e u hs h
  obtain ⟨n, ts, -, hbehind, hderives, -⟩ := hsub power s e u hs h
  exact shorter_of_behind hderives.ne_nil hbehind

theorem settled_argumentRounds : Settled (argumentRounds sub) := by
  intro s n m hs hn hm hpos hpos'
  obtain ⟨_, -, h⟩ := pendingCount.ends_argumentRounds hsub.reads hs (Nat.max_le.mpr ⟨hpos, hn⟩)
  obtain ⟨_, -, h'⟩ := pendingCount.ends_argumentRounds hsub.reads hs (Nat.max_le.mpr ⟨hpos', hm⟩)
  exact (h.unique h').2

theorem settled_operatorRounds (p : BindingPower) (left : Expr) :
    Settled (operatorRounds .standard sub p · left) := by
  intro s n m hs hn hm _ _
  obtain ⟨_, -, h⟩ := pendingCount.ends_operatorRounds hsub.reads hs hn
  obtain ⟨_, -, h'⟩ := pendingCount.ends_operatorRounds hsub.reads hs hm
  exact (h.unique h').2

end Expressions

section Statements

variable {room : Nat} {inner : Parse Stmt} (hinner : ReadsStmt room inner)
include hinner

theorem ReadsStmt.readsBeforeEnd : pendingCount.ReadsBeforeEnd inner := by
  intro s st u hs _ h
  obtain ⟨n, ts, -, hbehind, hstatement, -⟩ := hinner s st u hs h
  exact shorter_of_behind hstatement.ne_nil hbehind

theorem settled_stmtsUntil {ends : TokenKind → Bool} (hends : ends .endOfSource = true) :
    Settled (stmtsUntil ends inner) := by
  intro s n m hs hn hm _ _
  obtain ⟨_, -, h⟩ := pendingCount.ends_stmtsUntil hends hinner.readsBeforeEnd hs hn
  obtain ⟨_, -, h'⟩ := pendingCount.ends_stmtsUntil hends hinner.readsBeforeEnd hs hm
  exact (h.unique h').2

end Statements

theorem settled_parameterRounds (names : List String) : Settled (parameterRounds · names) := by
  intro s n m hs hn hm hpos hpos'
  obtain ⟨_, -, h⟩ := pendingCount.ends_parameterRounds names hs (Nat.max_le.mpr ⟨hpos, hn⟩)
  obtain ⟨_, -, h'⟩ := pendingCount.ends_parameterRounds names hs (Nat.max_le.mpr ⟨hpos', hm⟩)
  exact (h.unique h').2

end IntLang.Grammar
