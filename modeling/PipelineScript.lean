import PipelineScript.Diagnostic.Report
import PipelineScript.Output.Codec
import PipelineScript.Proofs.Reading.Isolation
import PipelineScript.Proofs.Rendering.Parsed
import PipelineScript.Settings.Codec
import PipelineScript.Trace
import PipelineScript.Cursor.Statement
import PipelineScript.Cursor
import PipelineScript.Proofs.Cursor.Follows
import PipelineScript.Proofs.Cursor.Phrases
import PipelineScript.Proofs.Cursor.Outputs
import PipelineScript.Proofs.Lexing.Delimiters
import PipelineScript.Proofs.Lexing.Grammar
import PipelineScript.Proofs.Reading.Accounting
import PipelineScript.Proofs.Reading.Faults
import PipelineScript.Proofs.Rendering.WellFormed
import PipelineScript.Proofs.Json.Scripts
import PipelineScript.Proofs.Edits.Insignificant
import PipelineScript.Proofs.Reading.Verbatim
import PipelineScript.Proofs.Reading.LastSemicolon
import PipelineScript.Proofs.Cursor.Resumption
import PipelineScript.Proofs.Reports.Excerpts
import PipelineScript.Cursor.Log
import PipelineScript.Proofs.Lexing.Encoded
import PipelineScript.Proofs.Lexing.Concatenation
import PipelineScript.Proofs.Lexing.Scanner
import PipelineScript.Proofs.Reading.Unended
import PipelineScript.Proofs.Traces.Trials
