import Lox.Proofs.Bracketing.Expressions
