import SqlLayout.Main
import SqlLayout.Proofs.Rewriting
import SqlLayout.Proofs.RoundTrip
import SqlLayout.Proofs.Run
import SqlLayout.Proofs.Read.Steps
import SqlLayout.Proofs.Read.Trees
import SqlLayout.Proofs.Read.Completed
import SqlLayout.Proofs.Layout.Outcome
import SqlLayout.Proofs.Words.LetterCase
import SqlLayout.Proofs.Read.LetterCase
import SqlLayout.Proofs.LetterCase
import SqlLayout.Proofs.Words.Semicolon
import SqlLayout.Proofs.Read.Semicolon
import SqlLayout.Proofs.Read.Following
import SqlLayout.Proofs.Separation
import SqlLayout.Proofs.DryRun
import SqlLayout.Proofs.Text.Collapse
import SqlLayout.Proofs.Words.Spacing
import SqlLayout.Proofs.Read.Spacing
import SqlLayout.Proofs.Layout.Copied
import SqlLayout.Proofs.Spacing
import SqlLayout.Proofs.Read.Literals
import SqlLayout.Proofs.Literals
import SqlLayout.Proofs.Read.Reported
import SqlLayout.Proofs.Reported
import SqlLayout.Proofs.Discovery
import SqlLayout.Proofs.Words.Letters
import SqlLayout.Proofs.Words.Alone
import SqlLayout.Proofs.Words.Taken
import SqlLayout.Proofs.Words.Keywords
import SqlLayout.Proofs.Words.Firm
import SqlLayout.Proofs.Words.Layouts
import SqlLayout.Proofs.Read.Tests
import SqlLayout.Proofs.Layout.Tests
import SqlLayout.Proofs.Where
import SqlLayout.Proofs.Read.Tables
import SqlLayout.Proofs.Layout.Marks
import SqlLayout.Proofs.Layout.Tables
import SqlLayout.Proofs.From
import SqlLayout.Proofs.JoinConditions
import SqlLayout.Proofs.Conditions
import SqlLayout.Proofs.Conjunction
import SqlLayout.Proofs.Counts
import SqlLayout.Proofs.SelectItems
import SqlLayout.Proofs.Select
import SqlLayout.Proofs.Calls
import SqlLayout.Proofs.Loop
import SqlLayout.Proofs.Having
import SqlLayout.Proofs.Read.Loops
import SqlLayout.Proofs.Termination
import SqlLayout.Proofs.Words.Losses
import SqlLayout.Proofs.Words.Parens
import SqlLayout.Proofs.Segments
import SqlLayout.Proofs.Indents
import SqlLayout.Proofs.Layout.Composition
import SqlLayout.Proofs.Layout.Contents
import SqlLayout.Proofs.Layout.Shifts
import SqlLayout.Proofs.CommandLine
